import StyleAudit.Extract.Animations
import StyleAudit.Extract.Colors
import StyleAudit.Extract.Fonts
import StyleAudit.Extract.Media
import StyleAudit.Extract.Property
import StyleAudit.Extract.Unused
import StyleAudit.Extract.Validity
import StyleAudit.Proofs.Outcomes
import StyleAudit.Proofs.Text.Encoding

/-!
# Which failures a question can have

Seven questions are asked of a stylesheet, each with a walk of its own over the rules.  They
agree on what a stylesheet is: bytes that are not UTF-8, braces that do not balance and rules
that cannot be read are *refused* (`Refused`), and a refusal is the answer to every question
(`AllFail`).

Behind the refusals there is little left that can fail, and this file says what.  A failure
of `mediaQueries` or `animations` comes from the inside of one at-rule, so it is wrapped
once.  A failure of `fonts` comes from a block at any depth, so it is wrapped once for each
at-rule around that block (`InDeclaration`).  `addInnerFonts` has one more way to fail, for
an item of a block that is the issue of a rule; a block has no such item
(`error_notMem_parseBlock`), because what cannot be read in a block is an issue of the block
itself.

* `readSheet_eq_error_iff` --- the tests that come first fail exactly on what is refused;
* `refused_or_answered` --- a refusal is everybody's, and what else can fail.
-/

namespace StyleAudit.Extract

open Css

/-! ## Outcomes one after the other -/

section Outcomes

variable {ε α β : Type}

/-- Two steps fail when the first does, or the second on what the first found. -/
theorem bind_eq_error {x : Except ε α} {f : α → Except ε β} {e : ε} :
    (x >>= f) = .error e ↔ x = .error e ∨ ∃ a, x = .ok a ∧ f a = .error e := by
  cases x with
  | error e' =>
    refine ⟨fun h => .inl (by cases h; rfl), ?_⟩
    rintro (h | ⟨a, ha, -⟩)
    · cases h
      rfl
    · cases ha
  | ok a =>
    refine ⟨fun h => .inr ⟨a, rfl, h⟩, ?_⟩
    rintro (h | ⟨b, hb, h⟩)
    · cases h
    · cases hb
      exact h

/-- A loop fails with the failure of one of its steps. -/
theorem exists_of_foldlM_eq_error {f : β → α → Except ε β} {e : ε} :
    ∀ {l : List α} {b : β}, l.foldlM f b = .error e → ∃ c a, a ∈ l ∧ f c a = .error e
  | [], b, h => by cases h
  | a :: l, b, h => by
    rw [List.foldlM_cons, bind_eq_error] at h
    rcases h with h | ⟨c, -, h⟩
    · exact ⟨b, a, List.mem_cons_self, h⟩
    · obtain ⟨c, a', ha', h⟩ := exists_of_foldlM_eq_error h
      exact ⟨c, a', List.mem_cons_of_mem a ha', h⟩

theorem forM_cons {f : α → Except ε Unit} (a : α) (l : List α) :
    (a :: l).forM f = (f a >>= fun _ => l.forM f) := rfl

/-- A run of tests passes if each test does. -/
theorem forM_eq_ok {f : α → Except ε Unit} {l : List α} (h : ∀ a ∈ l, f a = .ok ()) :
    l.forM f = .ok () := by
  induction l with
  | nil => rfl
  | cons a l ih =>
    obtain ⟨ha, hl⟩ := List.forall_mem_cons.mp h
    rw [forM_cons, ha]
    exact ih hl

/-- A run of tests gets past those that pass. -/
theorem forM_append_cons {f : α → Except ε Unit} {before : List α}
    (h : ∀ b ∈ before, f b = .ok ()) (a : α) (after : List α) :
    (before ++ a :: after).forM f = (f a >>= fun _ => after.forM f) := by
  induction before with
  | nil => rfl
  | cons b before ih =>
    obtain ⟨hb, hbefore⟩ := List.forall_mem_cons.mp h
    rw [List.cons_append, forM_cons, hb]
    exact ih hbefore

/-- A run of tests fails with the failure of the first test that does not pass. -/
theorem exists_split_of_forM_eq_error {f : α → Except ε Unit} {e : ε} :
    ∀ {l : List α}, l.forM f = .error e →
      ∃ before a after, l = before ++ a :: after ∧ (∀ b ∈ before, f b = .ok ()) ∧ f a = .error e
  | [], h => by cases h
  | a :: l, h => by
    rw [forM_cons, bind_eq_error] at h
    rcases h with h | ⟨⟨⟩, ha, h⟩
    · exact ⟨[], a, l, rfl, by simp, h⟩
    · obtain ⟨before, b, after, rfl, hbefore, hb⟩ := exists_split_of_forM_eq_error h
      exact ⟨a :: before, b, after, rfl, List.forall_mem_cons.mpr ⟨ha, hbefore⟩, hb⟩

end Outcomes

/-! ## Refusals -/

/-- What is refused, and why: bytes that are not UTF-8; else a text whose braces do not
balance; else the first rule at the top level that cannot be read. -/
inductive Refused (bytes : List UInt8) : Failure → Prop
  | decode {fault : Utf8.Fault} (hbytes : Utf8.decode bytes = .error fault) :
      Refused bytes (.decode fault)
  | braces {t : Text} (hbytes : Utf8.decode bytes = .ok t) (hne : t.count '{' ≠ t.count '}') :
      Refused bytes (.unbalancedBraces (t.count '{') (t.count '}'))
  | issue {t : Text} {before after : List Rule} {issue : Issue}
      (hbytes : Utf8.decode bytes = .ok t) (heq : t.count '{' = t.count '}')
      (hrules : parseStylesheet t = before ++ .error issue :: after)
      (hfirst : ∀ i, Rule.error i ∉ before) :
      Refused bytes (.parse none issue.fault.message issue.line issue.column)

/-- The first issue of a list of rules has only rules that could be read before it. -/
theorem firstIssue?_eq_some_iff {rules : List Rule} {issue : Issue} :
    Rule.firstIssue? rules = some issue ↔
      ∃ before after, rules = before ++ .error issue :: after ∧ ∀ i, Rule.error i ∉ before := by
  induction rules with
  | nil => simp [Rule.firstIssue?]
  | cons r rules ih =>
    constructor
    · intro h
      cases r with
      | error i =>
        have hi : i = issue := Option.some.inj h
        exact ⟨[], rules, by rw [hi, List.nil_append], by simp⟩
      | qualified q =>
        obtain ⟨before, after, rfl, hfirst⟩ := ih.mp h
        exact ⟨.qualified q :: before, after, rfl, by simpa using hfirst⟩
      | atRule q =>
        obtain ⟨before, after, rfl, hfirst⟩ := ih.mp h
        exact ⟨.atRule q :: before, after, rfl, by simpa using hfirst⟩
    · rintro ⟨before, after, hrules, hfirst⟩
      cases before with
      | nil =>
        rw [List.nil_append, List.cons.injEq] at hrules
        rw [hrules.1]
        rfl
      | cons r' before =>
        rw [List.cons_append, List.cons.injEq] at hrules
        obtain ⟨rfl, hrules⟩ := hrules
        have hrest := ih.mpr ⟨before, after, hrules, fun i hi =>
          hfirst i (List.mem_cons_of_mem r hi)⟩
        cases r with
        | error i => exact absurd List.mem_cons_self (hfirst i)
        | qualified q => exact hrest
        | atRule q => exact hrest

theorem firstIssue?_eq_none_iff {rules : List Rule} :
    Rule.firstIssue? rules = none ↔ ∀ i, Rule.error i ∉ rules := by
  rw [Rule.firstIssue?, List.findSome?_eq_none_iff]
  constructor
  · intro h i hi
    exact absurd (h _ hi) (by simp)
  · intro h r hr
    cases r with
    | error i => exact absurd hr (h i)
    | qualified q => rfl
    | atRule q => rfl

/-- A block has an issue if one of its items is one. -/
theorem firstItemIssue?_eq_none_iff {items : List Item} :
    Item.firstIssue? items = none ↔ ∀ issue, Item.error issue ∉ items := by
  rw [Item.firstIssue?, List.findSome?_eq_none_iff]
  constructor
  · intro h issue hmem
    cases h _ hmem
  · intro h item hmem
    cases item with
    | error issue => exact absurd hmem (h issue)
    | declaration d => rfl
    | rule r => rfl

theorem decodeSheet_eq_error_iff {bytes : List UInt8} {e : Failure} :
    decodeSheet bytes = .error e ↔
      ∃ fault, Utf8.decode bytes = .error fault ∧ e = .decode fault := by
  constructor
  · intro h
    cases hbytes : Utf8.decode bytes with
    | error fault =>
      rw [decodeSheet, hbytes] at h
      exact ⟨fault, rfl, (Except.error.inj h).symm⟩
    | ok t =>
      rw [decodeSheet, hbytes] at h
      cases h
  · rintro ⟨fault, hbytes, rfl⟩
    rw [decodeSheet, hbytes]
    rfl

theorem decodeSheet_eq_ok_iff {bytes : List UInt8} {t : Text} :
    decodeSheet bytes = .ok t ↔ Utf8.decode bytes = .ok t := by
  constructor
  · intro h
    cases hbytes : Utf8.decode bytes with
    | error fault =>
      rw [decodeSheet, hbytes] at h
      cases h
    | ok u =>
      rw [decodeSheet, hbytes] at h
      exact congrArg Except.ok (Except.ok.inj h)
  · intro hbytes
    rw [decodeSheet, hbytes]
    rfl

/-- A sheet that passes the tests is its rules. -/
theorem loadSheet_eq_ok_iff {t : Text} {rules : List Rule} :
    loadSheet t = .ok rules ↔
      t.count '{' = t.count '}' ∧ Rule.firstIssue? (parseStylesheet t) = none ∧
        parseStylesheet t = rules := by
  unfold loadSheet checkBraces checkIssues
  by_cases hcount : t.count '{' = t.count '}'
  · rw [if_pos hcount]
    cases hissue : Rule.firstIssue? (parseStylesheet t) with
    | some issue => simp [bind, Except.bind]
    | none => simp [hcount, bind, Except.bind, pure, Except.pure]
  · simp [hcount, bind, Except.bind]

theorem loadSheet_eq_error_iff {t : Text} {e : Failure} :
    loadSheet t = .error e ↔
      (t.count '{' ≠ t.count '}' ∧ e = .unbalancedBraces (t.count '{') (t.count '}')) ∨
        (t.count '{' = t.count '}' ∧
          ∃ issue, Rule.firstIssue? (parseStylesheet t) = some issue ∧ e = .ofIssue issue) := by
  unfold loadSheet checkBraces checkIssues
  by_cases hcount : t.count '{' = t.count '}'
  · rw [if_pos hcount]
    cases hissue : Rule.firstIssue? (parseStylesheet t) with
    | some issue => simp [hcount, bind, Except.bind, eq_comm]
    | none => simp [hcount, bind, Except.bind, pure, Except.pure]
  · simp [hcount, bind, Except.bind, eq_comm]

/-- **The tests that come first fail exactly on what is refused.** -/
theorem readSheet_eq_error_iff {bytes : List UInt8} {e : Failure} :
    readSheet bytes = .error e ↔ Refused bytes e := by
  rw [readSheet, bind_eq_error]
  constructor
  · rintro (h | ⟨t, ht, h⟩)
    · obtain ⟨fault, hfault, rfl⟩ := decodeSheet_eq_error_iff.mp h
      exact .decode hfault
    · have hbytes := decodeSheet_eq_ok_iff.mp ht
      rcases loadSheet_eq_error_iff.mp h with ⟨hne, rfl⟩ | ⟨heq, issue, hissue, rfl⟩
      · exact .braces hbytes hne
      · obtain ⟨before, after, hrules, hfirst⟩ := firstIssue?_eq_some_iff.mp hissue
        exact .issue hbytes heq hrules hfirst
  · rintro (hfault | ⟨hbytes, hne⟩ | ⟨hbytes, heq, hrules, hfirst⟩)
    · exact .inl (decodeSheet_eq_error_iff.mpr ⟨_, hfault, rfl⟩)
    · exact .inr ⟨_, decodeSheet_eq_ok_iff.mpr hbytes,
        loadSheet_eq_error_iff.mpr (.inl ⟨hne, rfl⟩)⟩
    · exact .inr ⟨_, decodeSheet_eq_ok_iff.mpr hbytes, loadSheet_eq_error_iff.mpr
        (.inr ⟨heq, _, firstIssue?_eq_some_iff.mpr ⟨_, _, hrules, hfirst⟩, rfl⟩)⟩

/-- The sheet that is read from the bytes of a text is the sheet of that text. -/
theorem readSheet_encode (t : Text) : readSheet (Utf8.encode t) = loadSheet t := by
  rw [readSheet, decodeSheet_eq_ok_iff.mpr (Utf8.decode_encode t)]
  rfl

/-- The bytes of a text are valid or not as the text is. -/
theorem validate_encode (t : Text) : validate (Utf8.encode t) = validateText t := by
  rw [validate, decodeSheet_eq_ok_iff.mpr (Utf8.decode_encode t)]
  rfl

/-- The rules of a stylesheet and its text come from the same bytes. -/
theorem exists_decode_of_readSheet {bytes : List UInt8} {rules : List Rule}
    (h : readSheet bytes = .ok rules) :
    ∃ t, Utf8.decode bytes = .ok t ∧ loadSheet t = .ok rules := by
  cases ht : decodeSheet bytes with
  | error e =>
    rw [readSheet, ht] at h
    cases h
  | ok t =>
    rw [readSheet, ht] at h
    exact ⟨t, decodeSheet_eq_ok_iff.mp ht, h⟩

/-- What the validation still has to do once the rules are read. -/
theorem validate_of_loadSheet {bytes : List UInt8} {t : Text} {rules : List Rule}
    (hbytes : Utf8.decode bytes = .ok t) (hload : loadSheet t = .ok rules) :
    validate bytes = (do rules.forM checkRule; checkSheetLines t; return t) := by
  rw [validate, decodeSheet_eq_ok_iff.mpr hbytes]
  show validateText t = _
  rw [validateText, hload]
  rfl

/-- **The steps that a text can fail**, one after the other: the rules are read, each of them is
looked at, and then the lines. -/
theorem validateText_eq_error_iff {t : Text} {e : Failure} :
    validateText t = .error e ↔ loadSheet t = .error e ∨ ∃ rules, loadSheet t = .ok rules ∧
      (rules.forM checkRule = .error e ∨
        rules.forM checkRule = .ok () ∧ checkSheetLines t = .error e) := by
  rw [validateText, bind_eq_error]
  refine or_congr_right (exists_congr fun rules => and_congr_right fun _ => ?_)
  rw [bind_eq_error]
  refine or_congr_right ⟨?_, fun ⟨hrules, h⟩ => ⟨(), hrules, bind_eq_error.mpr (.inl h)⟩⟩
  rintro ⟨⟨⟩, hrules, h⟩
  rcases bind_eq_error.mp h with h | ⟨-, -, h⟩
  · exact ⟨hrules, h⟩
  · cases h

/-- **What is valid**: bytes of a text that passes all of them. -/
theorem validate_eq_ok_iff {bytes : List UInt8} {t : Text} :
    validate bytes = .ok t ↔ Utf8.decode bytes = .ok t ∧ ∃ rules, loadSheet t = .ok rules ∧
      rules.forM checkRule = .ok () ∧ checkSheetLines t = .ok () := by
  constructor
  · intro h
    obtain ⟨u, hdecode, h⟩ := Outcomes.bind_eq_ok_iff.mp h
    obtain ⟨rules, hload, h⟩ := Outcomes.bind_eq_ok_iff.mp h
    obtain ⟨⟨⟩, hrules, h⟩ := Outcomes.bind_eq_ok_iff.mp h
    obtain ⟨⟨⟩, hlines, h⟩ := Outcomes.bind_eq_ok_iff.mp h
    cases h
    exact ⟨decodeSheet_eq_ok_iff.mp hdecode, rules, hload, hrules, hlines⟩
  · rintro ⟨hdecode, rules, hload, hrules, hlines⟩
    rw [validate_of_loadSheet hdecode hload]
    exact Outcomes.bind_eq_ok_iff.mpr
      ⟨(), hrules, Outcomes.bind_eq_ok_iff.mpr ⟨(), hlines, rfl⟩⟩

/-! ## What else can fail -/

/-- A question that only looks at the rules never fails on a sheet that is not refused. -/
theorem exists_eq_ok_of_readSheet {β : Type} {bytes : List UInt8} {rules : List Rule}
    (h : readSheet bytes = .ok rules) (f : List Rule → β) :
    ∃ b, (do return f (← readSheet bytes) : Except Failure β) = .ok b := by
  rw [h]
  exact ⟨f rules, rfl⟩

/-- A failure inside an at-rule at the top level is wrapped once, and is the first issue
there. -/
theorem innerRules_eq_error {rule : AtRule} {label scope : String} {e : Failure}
    (h : innerRules rule label scope = .error e) :
    ∃ message line column, e = .nested label (.parse (some scope) message line column) := by
  unfold innerRules checkIssues at h
  cases hissue : Rule.firstIssue? rule.rules with
  | none =>
    rw [hissue] at h
    cases h
  | some issue =>
    rw [hissue] at h
    cases h
    exact ⟨_, _, _, rfl⟩

theorem addMedia_eq_error {found : Table (List MediaRule)} {rule : Rule} {e : Failure}
    (h : addMedia found rule = .error e) :
    ∃ message line column,
      e = .nested "media query" (.parse (some "in media query") message line column) := by
  cases rule with
  | atRule r =>
    simp only [addMedia] at h
    split at h
    · rw [bind_eq_error] at h
      rcases h with h | ⟨inner, -, h⟩
      · exact innerRules_eq_error h
      · cases h
    · cases h
  | qualified r => cases h
  | error issue => cases h

theorem addDefinition_eq_error {found : Table Keyframes} {rule : Rule} {e : Failure}
    (h : addDefinition found rule = .error e) :
    ∃ message line column,
      e = .nested "@keyframes" (.parse (some "in @keyframes") message line column) := by
  cases rule with
  | atRule r =>
    simp only [addDefinition] at h
    split at h
    · rw [bind_eq_error] at h
      rcases h with h | ⟨inner, -, h⟩
      · exact innerRules_eq_error h
      · cases h
    · cases h
  | qualified r => cases h
  | error issue => cases h

/-- The failure of a declaration, wrapped any number of times. -/
inductive InDeclaration : Failure → Prop
  | parse (message : String) (line column : Nat) :
      InDeclaration (.parse (some "in declaration") message line column)
  | nested (label : String) {e : Failure} (h : InDeclaration e) :
      InDeclaration (.nested label e)

/-- What cannot be read in a block is an issue of the block: no rule among its items is an
issue. -/
theorem error_notMem_itemsFrom (eof : Place) (ls : List Lexeme) (issue : Issue) :
    Item.rule (.error issue) ∉ itemsFrom eof ls := by
  have hresult : ∀ known r, Item.rule (.error issue) ≠ Item.ofResult known r := by
    intro known r
    cases r <;> simp [Item.ofResult]
  fun_induction itemsFrom eof ls with
  | case1 => exact List.not_mem_nil
  | case2 l ls hsep ih => exact ih
  | case3 l ls hsep keyword hk r ih =>
    rw [List.mem_cons, not_or]
    exact ⟨by simp, ih⟩
  | case4 l ls hsep name hk d rest hd ih =>
    rw [List.mem_cons, not_or]
    exact ⟨by simp, ih⟩
  | case5 l ls hsep name hk fault hd r ih =>
    rw [List.mem_cons, not_or]
    exact ⟨hresult _ _, ih⟩
  | case6 l ls hsep r hk hi ih =>
    rw [List.mem_cons, not_or]
    exact ⟨hresult _ _, ih⟩

theorem error_notMem_parseBlock (t : Text) (issue : Issue) :
    Item.rule (.error issue) ∉ parseBlock t :=
  error_notMem_itemsFrom _ _ issue

theorem error_notMem_blockItems (rule : AtRule) (issue : Issue) :
    Item.rule (.error issue) ∉ blockItems rule := by
  unfold blockItems
  split
  · exact List.not_mem_nil
  · exact error_notMem_parseBlock _ issue

theorem addOwnFonts_eq_error {selector : Text} {items : List Item} {found : FontTable}
    {e : Failure} (h : addOwnFonts selector items found = .error e) : InDeclaration e := by
  unfold addOwnFonts at h
  split at h
  · cases h
    exact .parse _ _ _
  · cases h

/-- The induction follows the walk: a block, the blocks of the rules in it, and the rest of
the block.  Only an at-rule wraps. -/
theorem addInnerFonts_eq_error {selector : Text} {items : List Item} {found : FontTable}
    {e : Failure} (hitems : ∀ issue, Item.rule (.error issue) ∉ items)
    (h : addInnerFonts selector items found = .error e) : InDeclaration e := by
  fun_induction addInnerFonts selector items found generalizing e with
  | case1 => cases h
  | case2 selector rule items found inner ihInner =>
    rename_i ihRest
    have hrest : ∀ issue, Item.rule (.error issue) ∉ items := fun issue hi =>
      hitems issue (List.mem_cons_of_mem _ hi)
    rw [bind_eq_error] at h
    rcases h with h | ⟨own, -, h⟩
    · exact addOwnFonts_eq_error h
    rw [bind_eq_error] at h
    rcases h with h | ⟨deep, -, h⟩
    · exact ihInner own (error_notMem_parseBlock rule.body) h
    · exact ihRest deep hrest h
  | case3 selector rule items found ihInner ihRest =>
    have hrest : ∀ issue, Item.rule (.error issue) ∉ items := fun issue hi =>
      hitems issue (List.mem_cons_of_mem _ hi)
    rw [bind_eq_error] at h
    rcases h with h | ⟨deep, -, h⟩
    · cases hin : (addOwnFonts selector (blockItems rule) found >>=
          addInnerFonts selector (blockItems rule)) with
      | ok found' =>
        rw [hin] at h
        cases h
      | error e' =>
        rw [hin] at h
        cases h
        refine .nested _ ?_
        rw [bind_eq_error] at hin
        rcases hin with hin | ⟨own, -, hin⟩
        · exact addOwnFonts_eq_error hin
        · exact ihInner own (error_notMem_blockItems rule) hin
    · exact ihRest deep hrest h
  | case4 selector issue items found => exact absurd List.mem_cons_self (hitems issue)
  | case5 selector d items found ih =>
    exact ih (fun issue hi => hitems issue (List.mem_cons_of_mem _ hi)) h
  | case6 selector issue items found ih =>
    exact ih (fun issue hi => hitems issue (List.mem_cons_of_mem _ hi)) h

theorem addFonts_eq_error {rules : List Rule} {found : FontTable} {e : Failure}
    (h : addFonts rules found = .error e) : InDeclaration e := by
  fun_induction addFonts rules found generalizing e with
  | case1 => cases h
  | case2 rule rules found ih =>
    rw [bind_eq_error] at h
    rcases h with h | ⟨own, -, h⟩
    · exact addOwnFonts_eq_error h
    rw [bind_eq_error] at h
    rcases h with h | ⟨deep, -, h⟩
    · exact addInnerFonts_eq_error (error_notMem_parseBlock rule.body) h
    · exact ih deep h
  | case3 rule rules found ihInner ihRest =>
    rw [bind_eq_error] at h
    rcases h with h | ⟨inner, -, h⟩
    · exact ihInner h
    · exact ihRest inner h
  | case4 issue rules found ih => exact ih h

/-- A failure that `validate` can have behind the refusals. -/
inductive Objection : Failure → Prop
  | parse (message : String) (line column : Nat) :
      Objection (.parse (some "in declaration") message line column)
  | missingSemicolon (line : Text) (number : Option Nat) :
      Objection (.missingSemicolon line number)

theorem checkRule_eq_error {rule : Rule} {e : Failure} (h : checkRule rule = .error e) :
    Objection e := by
  cases rule with
  | qualified r =>
    simp only [checkRule] at h
    split at h
    · cases h
    · rw [bind_eq_error] at h
      rcases h with h | ⟨-, -, h⟩
      · unfold checkItems at h
        split at h
        · cases h
          exact .parse _ _ _
        · cases h
      · unfold checkBlockLines at h
        split at h
        · cases h
          exact .missingSemicolon _ _
        · cases h
  | atRule r => cases h
  | error issue => cases h

theorem checkSheetLines_eq_error {t : Text} {e : Failure} (h : checkSheetLines t = .error e) :
    Objection e := by
  unfold checkSheetLines at h
  split at h
  · cases h
    exact .missingSemicolon _ _
  · cases h

/-- All seven questions fail with one failure. -/
structure AllFail (bytes : List UInt8) (name html : Text) (e : Failure) : Prop where
  colors : colors bytes = .error e
  mediaQueries : mediaQueries bytes = .error e
  animations : animations bytes = .error e
  fonts : fonts bytes = .error e
  property : property bytes name = .error e
  unusedSelectors : unusedSelectors bytes html = .error e
  validate : validate bytes = .error e

/-- How the seven questions can fail on a sheet that is not refused. -/
structure Answered (bytes : List UInt8) (name html : Text) : Prop where
  colors : ∃ table, colors bytes = .ok table
  property : ∃ table, property bytes name = .ok table
  unusedSelectors : ∃ fragments, unusedSelectors bytes html = .ok fragments
  mediaQueries : ∀ e, mediaQueries bytes = .error e → ∃ message line column,
    e = .nested "media query" (.parse (some "in media query") message line column)
  animations : ∀ e, animations bytes = .error e → ∃ message line column,
    e = .nested "@keyframes" (.parse (some "in @keyframes") message line column)
  fonts : ∀ e, fonts bytes = .error e → InDeclaration e
  validate : ∀ e, validate bytes = .error e → Objection e

theorem allFail_of_readSheet {bytes : List UInt8} {name html : Text} {e : Failure}
    (h : readSheet bytes = .error e) : AllFail bytes name html e where
  colors := bind_eq_error.mpr (.inl h)
  mediaQueries := bind_eq_error.mpr (.inl h)
  animations := bind_eq_error.mpr (.inl h)
  fonts := bind_eq_error.mpr (.inl h)
  property := bind_eq_error.mpr (.inl h)
  unusedSelectors := bind_eq_error.mpr (.inl h)
  validate := by
    rw [readSheet, bind_eq_error] at h
    refine bind_eq_error.mpr ?_
    rcases h with h | ⟨t, ht, h⟩
    · exact .inl h
    · exact .inr ⟨t, ht, bind_eq_error.mpr (.inl h)⟩

theorem answered_of_readSheet {bytes : List UInt8} {rules : List Rule} (name html : Text)
    (h : readSheet bytes = .ok rules) : Answered bytes name html where
  colors := exists_eq_ok_of_readSheet h _
  property := exists_eq_ok_of_readSheet h _
  unusedSelectors := exists_eq_ok_of_readSheet h _
  mediaQueries := by
    intro e he
    rw [mediaQueries, h] at he
    obtain ⟨found, rule, -, hrule⟩ := exists_of_foldlM_eq_error he
    exact addMedia_eq_error hrule
  animations := by
    intro e he
    rw [animations, bind_eq_error, h] at he
    rcases he with he | ⟨_, -, he⟩
    · cases he
    rcases bind_eq_error.mp he with he | ⟨_, -, he⟩
    · obtain ⟨found, rule, -, hrule⟩ := exists_of_foldlM_eq_error he
      exact addDefinition_eq_error hrule
    · cases he
  fonts := by
    intro e he
    rw [fonts, h] at he
    exact addFonts_eq_error he
  validate := by
    intro e he
    obtain ⟨t, hbytes, hload⟩ := exists_decode_of_readSheet h
    rw [validate_of_loadSheet hbytes hload] at he
    rcases bind_eq_error.mp he with he | ⟨-, -, he⟩
    · obtain ⟨-, rule, -, -, -, hrule⟩ := exists_split_of_forM_eq_error he
      exact checkRule_eq_error hrule
    rcases bind_eq_error.mp he with he | ⟨-, -, he⟩
    · exact checkSheetLines_eq_error he
    · cases he

/-- Something is refused unless its bytes are a text with balanced braces and no issue at
the top level. -/
theorem exists_refused_iff {bytes : List UInt8} :
    (∃ e, Refused bytes e) ↔ ∀ t, Utf8.decode bytes = .ok t →
      t.count '{' ≠ t.count '}' ∨ ∃ issue, Rule.error issue ∈ parseStylesheet t := by
  constructor
  · rintro ⟨e, hfault | ⟨hbytes, hne⟩ | ⟨hbytes, heq, hrules, hfirst⟩⟩ t ht
    · rw [hfault] at ht
      cases ht
    · rw [hbytes] at ht
      cases ht
      exact .inl hne
    · rw [hbytes] at ht
      cases ht
      right
      rw [hrules]
      exact ⟨_, List.mem_append_right _ List.mem_cons_self⟩
  · intro h
    cases hread : readSheet bytes with
    | error e => exact ⟨e, readSheet_eq_error_iff.mp hread⟩
    | ok rules =>
      obtain ⟨t, ht, hload⟩ := exists_decode_of_readSheet hread
      obtain ⟨hcount, hissue, -⟩ := loadSheet_eq_ok_iff.mp hload
      rcases h t ht with hne | ⟨issue, hmem⟩
      · exact absurd hcount hne
      · exact absurd hmem (firstIssue?_eq_none_iff.mp hissue issue)

/-- **A refusal is the answer to all seven questions, and behind the refusals little can
fail.**  What is refused fails every question with the same failure.  Otherwise three
questions have an answer, and each of the other four has one kind of failure, or two; and no
block has the issue of a rule among its items. -/
theorem refused_or_answered (bytes : List UInt8) (name html : Text) :
    ((∃ e, Refused bytes e) ↔ ∀ t, Utf8.decode bytes = .ok t →
      t.count '{' ≠ t.count '}' ∨ ∃ issue, Rule.error issue ∈ parseStylesheet t) ∧
      (∀ e, Refused bytes e → AllFail bytes name html e) ∧
      ((∀ e, ¬ Refused bytes e) → Answered bytes name html) ∧
      ∀ block issue, Item.rule (.error issue) ∉ parseBlock block := by
  refine ⟨exists_refused_iff, fun e he => allFail_of_readSheet (readSheet_eq_error_iff.mpr he),
    fun hnone => ?_, error_notMem_parseBlock⟩
  cases h : readSheet bytes with
  | error e => exact absurd (readSheet_eq_error_iff.mp h) (hnone e)
  | ok rules => exact answered_of_readSheet name html h

/-- A stylesheet with a fault inside a media query, inside keyframes, in a nested block and in a
block of its own; all of them are behind the refusals. -/
def faultsInside : Text :=
  ("@media print\x7b.a\x7bcolor:red\x7d.b\x7d @keyframes k\x7bfrom\x7btop:0\x7dto\x7d " ++
    ".c\x7b.d\x7bfont red\x7d\x7d .e\x7bmargin 0\x7d").toList

/-- A closing brace too many is the answer to all questions.  The faults inside the blocks of a
stylesheet are not: three questions have answers, and the other four fail in their own ways. -/
theorem refused_or_answered_brace :
    AllFail (Utf8.encode ['\x7d']) "color".toList [] (.unbalancedBraces 0 1) ∧
      Answered (Utf8.encode faultsInside) "color".toList ".c".toList ∧
      (mediaQueries (Utf8.encode faultsInside)).isOk = false ∧
      (animations (Utf8.encode faultsInside)).isOk = false ∧
      (fonts (Utf8.encode faultsInside)).isOk = false ∧
      (validate (Utf8.encode faultsInside)).isOk = false := by
  have hbrace : Refused (Utf8.encode ['\x7d']) (.unbalancedBraces 0 1) :=
    Refused.braces (Utf8.decode_encode ['\x7d']) (by decide)
  have hread : readSheet (Utf8.encode faultsInside) = .ok (parseStylesheet faultsInside) := by
    rw [readSheet_encode]
    exact loadSheet_eq_ok_iff.mpr ⟨by decide +kernel, by decide +kernel, rfl⟩
  have hinside : ∀ e, ¬ Refused (Utf8.encode faultsInside) e := by
    intro e he
    cases hread.symm.trans (readSheet_eq_error_iff.mpr he)
  obtain ⟨-, hfail, -, -⟩ := refused_or_answered (Utf8.encode ['\x7d']) "color".toList []
  obtain ⟨-, -, hanswer, -⟩ :=
    refused_or_answered (Utf8.encode faultsInside) "color".toList ".c".toList
  exact ⟨hfail _ hbrace, hanswer hinside, by decide +kernel⟩

end StyleAudit.Extract
