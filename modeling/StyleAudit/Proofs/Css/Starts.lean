import StyleAudit.Css.Parser

/-!
# Where rules and items begin

A stylesheet is read rule by rule.  What is read at one place depends only on the lexemes from
there on, so the reading falls into two parts: the list of what is left where each rule begins
(`ruleStarts`), and the rule that begins at the front of a list of lexemes (`ruleAt`).  The rules
of a stylesheet are the second part applied to each member of the first (`rulesFrom_eq_map`), and
in the same way the items of a block are `itemAt` of each of `itemStarts`.

With the starts at hand one can say where in the text something stands that a rule holds.  In
particular the inside of a block is the front of what is left behind the brace that opens it
(`body_ruleAt`, `body_itemAt`), and that brace is a lexeme of the text outside of the block.  So
**a block is a proper part of the text that it is read from** (`body_of_mem_parseStylesheet`,
`body_of_mem_parseBlock`).
-/

namespace StyleAudit.Css

/-! ## Stylesheets -/

/-- What is left of the lexemes of a stylesheet where each of its rules begins. -/
def ruleStarts (eof : Place) (first : Bool) : List Lexeme → List (List Lexeme)
  | [] => []
  | l :: ls =>
    if separatesRules l.token then ruleStarts eof first ls
    else
      match l.token with
      | .atKeyword keyword =>
        if first && keyword.sameName "charset".toList then
          ruleStarts eof false (passOver endsHead ls)
        else (l :: ls) :: ruleStarts eof false (atRuleAhead keyword l.start.line ls).2
      | _ => (l :: ls) :: ruleStarts eof false (qualifiedAhead false eof (l :: ls)).2
termination_by ls => ls.length
decreasing_by
  · simp only [List.length_cons]; omega
  · have := (passOver_suffix endsHead ls).length_le
    simp only [List.length_cons, List.length_tail] at this ⊢; omega
  · have := (atRuleAhead_suffix keyword l.start.line ls).length_le
    simp only [List.length_cons]; omega
  · have := (qualifiedAhead_suffix false eof (l :: ls)).length_le
    simp only [List.length_cons, List.tail_cons] at this ⊢; omega

section RuleStarts

variable {eof : Place} {first : Bool} {l : Lexeme} {ls : List Lexeme}

@[simp] theorem ruleStarts_nil : ruleStarts eof first [] = [] := by rw [ruleStarts]

theorem ruleStarts_of_separates (h : separatesRules l.token = true) :
    ruleStarts eof first (l :: ls) = ruleStarts eof first ls := by
  rw [ruleStarts, if_pos h]

theorem ruleStarts_of_charset {keyword : Text} (hk : l.token = .atKeyword keyword)
    (h : (first && keyword.sameName "charset".toList) = true) :
    ruleStarts eof first (l :: ls) = ruleStarts eof false (passOver endsHead ls) := by
  rw [ruleStarts, if_neg (by simp [hk, separatesRules]), hk]
  simp only [h, if_true]

theorem ruleStarts_of_atKeyword {keyword : Text} (hk : l.token = .atKeyword keyword)
    (h : (first && keyword.sameName "charset".toList) = false) :
    ruleStarts eof first (l :: ls) =
      (l :: ls) :: ruleStarts eof false (atRuleAhead keyword l.start.line ls).2 := by
  rw [ruleStarts, if_neg (by simp [hk, separatesRules]), hk]
  simp only [h, Bool.false_eq_true, if_false]

theorem ruleStarts_of_qualified (hsep : separatesRules l.token = false)
    (hk : ∀ keyword, l.token ≠ .atKeyword keyword) :
    ruleStarts eof first (l :: ls) =
      (l :: ls) :: ruleStarts eof false (qualifiedAhead false eof (l :: ls)).2 := by
  rw [ruleStarts, if_neg (by simp [hsep])]
  split
  next keyword h => exact absurd h (hk keyword)
  next => rfl

end RuleStarts

/-- The rule that begins at the front of the lexemes. -/
def ruleAt (eof : Place) (ls : List Lexeme) : Rule :=
  match ls with
  | ⟨.atKeyword keyword, _, start⟩ :: rest => .atRule (atRuleAhead keyword start.line rest).1
  | ls => Rule.ofResult (qualifiedAhead false eof ls).1

section RuleAt

variable {eof : Place} {l : Lexeme} {ls : List Lexeme}

theorem ruleAt_of_atKeyword {keyword : Text} (h : l.token = .atKeyword keyword) :
    ruleAt eof (l :: ls) = .atRule (atRuleAhead keyword l.start.line ls).1 := by
  obtain ⟨token, text, start⟩ := l
  obtain rfl : token = .atKeyword keyword := h
  rfl

theorem ruleAt_of_qualified (h : ∀ keyword, l.token ≠ .atKeyword keyword) :
    ruleAt eof (l :: ls) = Rule.ofResult (qualifiedAhead false eof (l :: ls)).1 := by
  unfold ruleAt
  split
  next keyword _ _ _ heq =>
    cases heq
    exact absurd rfl (h keyword)
  next => rfl

end RuleAt

/-- **The rules of a stylesheet are read where they begin.** -/
theorem rulesFrom_eq_map (eof : Place) (first : Bool) (ls : List Lexeme) :
    rulesFrom eof first ls = (ruleStarts eof first ls).map (ruleAt eof) := by
  fun_induction ruleStarts eof first ls with
  | case1 => rw [rulesFrom_nil]; rfl
  | case2 first l ls hsep ih => rw [rulesFrom_of_separates hsep, ih]
  | case3 first l ls hsep keyword hk hfirst ih => rw [rulesFrom_of_charset hk hfirst, ih]
  | case4 first l ls hsep keyword hk hfirst ih =>
    rw [rulesFrom_of_atKeyword hk (by simpa using hfirst), List.map_cons, ih,
      ruleAt_of_atKeyword hk]
  | case5 first l ls hsep hk ih =>
    rw [rulesFrom_of_qualified (by simpa using hsep) hk, List.map_cons, ih,
      ruleAt_of_qualified hk]

/-- Where something begins, given that it begins at the front of the lexemes or in what is left
behind the first thing that is read. -/
theorem start_suffix {l : Lexeme} {ls rest s : List Lexeme} {starts : List (List Lexeme)}
    (hrest : rest <:+ l :: ls) (ih : s ∈ starts → s ≠ [] ∧ s <:+ rest)
    (h : s ∈ (l :: ls) :: starts) : s ≠ [] ∧ s <:+ l :: ls := by
  rcases List.mem_cons.mp h with rfl | h
  · exact ⟨List.cons_ne_nil l ls, List.suffix_rfl⟩
  · exact ⟨(ih h).1, (ih h).2.trans hrest⟩

/-- A rule begins at a lexeme of the stylesheet. -/
theorem ruleStarts_suffix {eof : Place} {first : Bool} {ls s : List Lexeme}
    (h : s ∈ ruleStarts eof first ls) : s ≠ [] ∧ s <:+ ls := by
  fun_induction ruleStarts eof first ls with
  | case1 => cases h
  | case2 first l ls hsep ih =>
    exact ⟨(ih h).1, (ih h).2.trans (List.suffix_cons l ls)⟩
  | case3 first l ls hsep keyword hk hfirst ih =>
    exact ⟨(ih h).1, (ih h).2.trans ((passOver_suffix endsHead ls).trans
      ((List.tail_suffix ls).trans (List.suffix_cons l ls)))⟩
  | case4 first l ls hsep keyword hk hfirst ih =>
    exact start_suffix ((atRuleAhead_suffix keyword l.start.line ls).trans
      (List.suffix_cons l ls)) ih h
  | case5 first l ls hsep hk ih =>
    exact start_suffix ((qualifiedAhead_suffix false eof (l :: ls)).trans (List.tail_suffix _))
      ih h

/-! ## Blocks -/

/-- What is left of the lexemes of a block where each of its items begins. -/
def itemStarts (eof : Place) : List Lexeme → List (List Lexeme)
  | [] => []
  | l :: ls =>
    if separatesItems l.token then itemStarts eof ls
    else
      match l.token with
      | .atKeyword keyword =>
        (l :: ls) :: itemStarts eof (atRuleAhead keyword l.start.line ls).2
      | .ident name =>
        match _h : declarationAhead eof name ls with
        | .ok r => (l :: ls) :: itemStarts eof r.2
        | .error _ => (l :: ls) :: itemStarts eof (qualifiedAhead true eof (l :: ls)).2
      | _ => (l :: ls) :: itemStarts eof (qualifiedAhead true eof (l :: ls)).2
termination_by ls => ls.length
decreasing_by
  · simp only [List.length_cons]; omega
  · have := (atRuleAhead_suffix keyword l.start.line ls).length_le
    simp only [List.length_cons]; omega
  · have := (declarationAhead_suffix _h).length_le
    simp only [List.length_cons] at this ⊢; omega
  all_goals
    have := (qualifiedAhead_suffix true eof (l :: ls)).length_le
    simp only [List.length_cons, List.tail_cons] at this ⊢; omega

section ItemStarts

variable {eof : Place} {l : Lexeme} {ls : List Lexeme}

@[simp] theorem itemStarts_nil : itemStarts eof [] = [] := by rw [itemStarts]

theorem itemStarts_of_separates (h : separatesItems l.token = true) :
    itemStarts eof (l :: ls) = itemStarts eof ls := by
  rw [itemStarts, if_pos h]

theorem itemStarts_of_atKeyword {keyword : Text} (hk : l.token = .atKeyword keyword) :
    itemStarts eof (l :: ls) =
      (l :: ls) :: itemStarts eof (atRuleAhead keyword l.start.line ls).2 := by
  rw [itemStarts, if_neg (by simp [hk, separatesItems]), hk]

theorem itemStarts_of_ident {name : Text} (hk : l.token = .ident name) :
    itemStarts eof (l :: ls) = (l :: ls) :: itemStarts eof
      (match declarationAhead eof name ls with
        | .ok r => r.2
        | .error _ => (qualifiedAhead true eof (l :: ls)).2) := by
  rw [itemStarts, if_neg (by simp [hk, separatesItems])]
  split
  next hk' => rw [hk] at hk'; cases hk'
  next hk' =>
    rw [hk] at hk'
    cases hk'
    split
    next h => simp only [h]
    next h => simp only [h]
  next _ hk' => exact absurd hk (hk' name)

theorem itemStarts_of_qualified (hsep : separatesItems l.token = false)
    (hk : ∀ keyword, l.token ≠ .atKeyword keyword) (hi : ∀ name, l.token ≠ .ident name) :
    itemStarts eof (l :: ls) =
      (l :: ls) :: itemStarts eof (qualifiedAhead true eof (l :: ls)).2 := by
  rw [itemStarts, if_neg (by simp [hsep])]
  split
  next keyword h => exact absurd h (hk keyword)
  next name h => exact absurd h (hi name)
  next => rfl

end ItemStarts

/-- The item that begins at the front of the lexemes. -/
def itemAt (eof : Place) (ls : List Lexeme) : Item :=
  match ls with
  | ⟨.atKeyword keyword, _, start⟩ :: rest =>
    .rule (.atRule (atRuleAhead keyword start.line rest).1)
  | ⟨.ident name, text, start⟩ :: rest =>
    match declarationAhead eof name rest with
    | .ok r => .declaration r.1
    | .error issue =>
      Item.ofResult (some issue) (qualifiedAhead true eof (⟨.ident name, text, start⟩ :: rest)).1
  | ls => Item.ofResult none (qualifiedAhead true eof ls).1

section ItemAt

variable {eof : Place} {l : Lexeme} {ls : List Lexeme}

theorem itemAt_of_atKeyword {keyword : Text} (h : l.token = .atKeyword keyword) :
    itemAt eof (l :: ls) = .rule (.atRule (atRuleAhead keyword l.start.line ls).1) := by
  obtain ⟨token, text, start⟩ := l
  obtain rfl : token = .atKeyword keyword := h
  rfl

theorem itemAt_of_declaration {name : Text} {r : Declaration × List Lexeme}
    (h : l.token = .ident name) (hd : declarationAhead eof name ls = .ok r) :
    itemAt eof (l :: ls) = .declaration r.1 := by
  obtain ⟨token, text, start⟩ := l
  obtain rfl : token = .ident name := h
  simp only [itemAt, hd]

theorem itemAt_of_retried {name : Text} {issue : Issue} (h : l.token = .ident name)
    (hd : declarationAhead eof name ls = .error issue) :
    itemAt eof (l :: ls) =
      Item.ofResult (some issue) (qualifiedAhead true eof (l :: ls)).1 := by
  obtain ⟨token, text, start⟩ := l
  obtain rfl : token = .ident name := h
  simp only [itemAt, hd]

theorem itemAt_of_qualified (hk : ∀ keyword, l.token ≠ .atKeyword keyword)
    (hi : ∀ name, l.token ≠ .ident name) :
    itemAt eof (l :: ls) = Item.ofResult none (qualifiedAhead true eof (l :: ls)).1 := by
  unfold itemAt
  split
  next keyword _ _ _ heq =>
    cases heq
    exact absurd rfl (hk keyword)
  next name _ _ _ heq =>
    cases heq
    exact absurd rfl (hi name)
  next => rfl

end ItemAt

/-- **The items of a block are read where they begin.** -/
theorem itemsFrom_eq_map (eof : Place) (ls : List Lexeme) :
    itemsFrom eof ls = (itemStarts eof ls).map (itemAt eof) := by
  fun_induction itemStarts eof ls with
  | case1 => rw [itemsFrom_nil]; rfl
  | case2 l ls hsep ih => rw [itemsFrom_of_separates hsep, ih]
  | case3 l ls hsep keyword hk ih =>
    rw [itemsFrom_of_atKeyword hk, List.map_cons, ih, itemAt_of_atKeyword hk]
  | case4 l ls hsep name hi r hd ih =>
    rw [itemsFrom_of_declaration hi hd, List.map_cons, ih, itemAt_of_declaration hi hd]
  | case5 l ls hsep name hi issue hd ih =>
    rw [itemsFrom_of_retried hi hd, List.map_cons, ih, itemAt_of_retried hi hd]
  | case6 l ls hsep hk hi ih =>
    rw [itemsFrom_of_qualified (by simpa using hsep) hk hi, List.map_cons, ih,
      itemAt_of_qualified hk hi]

/-- An item begins at a lexeme of the block. -/
theorem itemStarts_suffix {eof : Place} {ls s : List Lexeme} (h : s ∈ itemStarts eof ls) :
    s ≠ [] ∧ s <:+ ls := by
  fun_induction itemStarts eof ls with
  | case1 => cases h
  | case2 l ls hsep ih => exact ⟨(ih h).1, (ih h).2.trans (List.suffix_cons l ls)⟩
  | case3 l ls hsep keyword hk ih =>
    exact start_suffix ((atRuleAhead_suffix keyword l.start.line ls).trans
      (List.suffix_cons l ls)) ih h
  | case4 l ls hsep name hi r hd ih =>
    exact start_suffix ((declarationAhead_suffix hd).trans (List.suffix_cons l ls)) ih h
  | case5 l ls hsep name hi issue hd ih | case6 l ls hsep hk hi ih =>
    exact start_suffix ((qualifiedAhead_suffix true eof (l :: ls)).trans (List.tail_suffix _))
      ih h

/-! ## The inside of a block -/

/-- The text between the braces of a rule, if the rule has a block. -/
def Rule.body? : Rule → Option Text
  | .qualified rule => some rule.body
  | .atRule rule => rule.body
  | .error _ => none

/-- The text between the braces of the rule that an item is, if it is one and has a block. -/
def Item.body? : Item → Option Text
  | .rule r => r.body?
  | _ => none

/-- What is left behind the brace that opens a block, if a run up to a token that `stop` accepts
ends at one. -/
def insideBrace? (stop : Token → Bool) (ls : List Lexeme) : Option (List Lexeme) :=
  match skipBlanks (valuesUntil stop [] ls).2 with
  | [] => none
  | e :: rest => if opensBlock e.token then some rest else none

/-- What is left behind the brace that opens the block of the rule at the front of the
lexemes. -/
def insideBlock? (nested : Bool) (ls : List Lexeme) : Option (List Lexeme) :=
  match ls with
  | ⟨.atKeyword _, _, _⟩ :: rest => insideBrace? endsHead rest
  | ls => insideBrace? (if nested then endsHead else opensBlock) ls

/-- The brace that opens a block is a lexeme. -/
theorem exists_brace_of_insideBrace? {stop : Token → Bool} {ls block : List Lexeme}
    (h : insideBrace? stop ls = some block) :
    ∃ e, e :: block <:+ ls ∧ opensBlock e.token = true := by
  have hs := skipBlanks_valuesUntil_suffix stop [] ls
  unfold insideBrace? at h
  split at h
  · cases h
  next e rest he =>
    rw [he] at hs
    split at h
    next hopens =>
      cases h
      exact ⟨e, hs, hopens⟩
    · cases h

theorem insideBrace?_suffix {stop : Token → Bool} {ls block : List Lexeme}
    (h : insideBrace? stop ls = some block) : block <:+ ls.tail := by
  obtain ⟨e, hs, -⟩ := exists_brace_of_insideBrace? h
  exact suffix_tail_of_cons_suffix hs

theorem exists_brace_of_insideBlock? {nested : Bool} {ls block : List Lexeme}
    (h : insideBlock? nested ls = some block) :
    ∃ e, e :: block <:+ ls ∧ opensBlock e.token = true := by
  unfold insideBlock? at h
  split at h
  next rest =>
    obtain ⟨e, hs, hopens⟩ := exists_brace_of_insideBrace? h
    exact ⟨e, hs.trans (List.suffix_cons _ rest), hopens⟩
  next => exact exists_brace_of_insideBrace? h

theorem insideBlock?_suffix {nested : Bool} {ls block : List Lexeme}
    (h : insideBlock? nested ls = some block) : block <:+ ls.tail := by
  unfold insideBlock? at h
  split at h
  next rest => exact (insideBrace?_suffix h).trans (List.tail_suffix rest)
  next => exact insideBrace?_suffix h

theorem blockAhead_prefix (ls : List Lexeme) : (blockAhead ls).1 <+: Lexeme.sourceOf ls := by
  have h := congrArg Lexeme.sourceOf (valuesUntil_append (· == .closing .curly) [] ls)
  rw [Lexeme.sourceOf_append] at h
  exact ⟨_, h⟩

theorem insideBrace?_of_skipBlanks {stop : Token → Bool} {ls block : List Lexeme} {e : Lexeme}
    (h : skipBlanks (valuesUntil stop [] ls).2 = e :: block) (he : opensBlock e.token = true) :
    insideBrace? stop ls = some block := by
  rw [insideBrace?, h]
  exact if_pos he

/-- The block of an at-rule begins behind its brace. -/
theorem body_atRuleAhead {keyword body : Text} {line : Nat} {ls : List Lexeme}
    (h : (atRuleAhead keyword line ls).1.body = some body) :
    ∃ block, insideBrace? endsHead ls = some block ∧ body = (blockAhead block).1 := by
  simp only [atRuleAhead] at h
  split at h
  · cases h
  next e rest he =>
    split at h
    next hopens =>
      exact ⟨rest, insideBrace?_of_skipBlanks he hopens, (Option.some.inj h).symm⟩
    next => cases h

/-- The block of a qualified rule begins behind its brace, and `bodyLine` is the line there. -/
theorem body_qualifiedAhead {nested : Bool} {eof : Place} {ls : List Lexeme}
    {rule : QualifiedRule} (h : (qualifiedAhead nested eof ls).1 = .ok rule) :
    ∃ e block, skipBlanks (valuesUntil (if nested then endsHead else opensBlock) [] ls).2 =
        e :: block ∧ opensBlock e.token = true ∧ rule.body = (blockAhead block).1 ∧
      rule.bodyLine = e.stop.line := by
  simp only [qualifiedAhead] at h
  split at h
  · cases h
  · split at h
    · cases h
    next e rest he =>
      split at h
      next hopens =>
        cases h
        exact ⟨e, rest, he, hopens, rfl, rfl⟩
      next => cases h

theorem inside_qualifiedAhead {nested : Bool} {eof : Place} {ls : List Lexeme}
    {rule : QualifiedRule} (h : (qualifiedAhead nested eof ls).1 = .ok rule) :
    ∃ block, insideBrace? (if nested then endsHead else opensBlock) ls = some block ∧
      rule.body = (blockAhead block).1 := by
  obtain ⟨e, block, hskip, he, hbody, -⟩ := body_qualifiedAhead h
  exact ⟨block, insideBrace?_of_skipBlanks hskip he, hbody⟩

/-! ## What begins at a start -/

section Readings

variable {eof : Place} {l : Lexeme} {ls : List Lexeme}

theorem Rule.eq_ok_of_ofResult {r : Except Issue QualifiedRule} {rule : QualifiedRule}
    (h : Rule.ofResult r = .qualified rule) : r = .ok rule := by
  cases r with
  | ok rule' => cases h; rfl
  | error issue => cases h

theorem Item.eq_ok_of_ofResult {known : Option Issue} {r : Except Issue QualifiedRule}
    {rule : QualifiedRule} (h : Item.ofResult known r = .rule (.qualified rule)) :
    r = .ok rule := by
  cases r with
  | ok rule' => cases h; rfl
  | error issue => cases h

/-- What begins in a stylesheet is read as an at-rule or as a qualified rule. -/
theorem cases_of_ruleAt (eof : Place) (l : Lexeme) (ls : List Lexeme) :
    (∃ keyword, ruleAt eof (l :: ls) = .atRule (atRuleAhead keyword l.start.line ls).1 ∧
      insideBlock? false (l :: ls) = insideBrace? endsHead ls) ∨
    (ruleAt eof (l :: ls) = Rule.ofResult (qualifiedAhead false eof (l :: ls)).1 ∧
      insideBlock? false (l :: ls) = insideBrace? opensBlock (l :: ls)) := by
  obtain ⟨token, text, start⟩ := l
  cases token with
  | atKeyword keyword => exact .inl ⟨keyword, rfl, rfl⟩
  | _ => exact .inr ⟨rfl, rfl⟩

/-- What begins in a block is read as an at-rule, as a declaration or as a qualified rule. -/
theorem cases_of_itemAt (eof : Place) (l : Lexeme) (ls : List Lexeme) :
    (∃ keyword, itemAt eof (l :: ls) = .rule (.atRule (atRuleAhead keyword l.start.line ls).1) ∧
      insideBlock? true (l :: ls) = insideBrace? endsHead ls) ∨
    (∃ d, itemAt eof (l :: ls) = .declaration d) ∨
    ∃ known, itemAt eof (l :: ls) = Item.ofResult known (qualifiedAhead true eof (l :: ls)).1 ∧
      insideBlock? true (l :: ls) = insideBrace? endsHead (l :: ls) := by
  obtain ⟨token, text, start⟩ := l
  cases token with
  | atKeyword keyword => exact .inl ⟨keyword, rfl, rfl⟩
  | ident name =>
    cases hd : declarationAhead eof name ls with
    | ok r => exact .inr (.inl ⟨r.1, itemAt_of_declaration rfl hd⟩)
    | error issue => exact .inr (.inr ⟨some issue, itemAt_of_retried rfl hd, rfl⟩)
  | _ => exact .inr (.inr ⟨none, rfl, rfl⟩)

/-- A qualified rule in a stylesheet was read as one. -/
theorem qualified_of_ruleAt {rule : QualifiedRule} (h : ruleAt eof (l :: ls) = .qualified rule) :
    (qualifiedAhead false eof (l :: ls)).1 = .ok rule ∧
      insideBlock? false (l :: ls) = insideBrace? opensBlock (l :: ls) := by
  rcases cases_of_ruleAt eof l ls with ⟨keyword, hrule, -⟩ | ⟨hrule, hinside⟩
  · cases hrule.symm.trans h
  · exact ⟨Rule.eq_ok_of_ofResult (hrule.symm.trans h), hinside⟩

/-- A qualified rule in a block was read as one. -/
theorem qualified_of_itemAt {rule : QualifiedRule}
    (h : itemAt eof (l :: ls) = .rule (.qualified rule)) :
    (qualifiedAhead true eof (l :: ls)).1 = .ok rule ∧
      insideBlock? true (l :: ls) = insideBrace? endsHead (l :: ls) := by
  rcases cases_of_itemAt eof l ls with ⟨keyword, hitem, -⟩ | ⟨d, hitem⟩ | ⟨known, hitem, hinside⟩
  · cases hitem.symm.trans h
  · cases hitem.symm.trans h
  · exact ⟨Item.eq_ok_of_ofResult (hitem.symm.trans h), hinside⟩

/-- **The block of a rule begins behind its brace.** -/
theorem body_ruleAt {body : Text} (h : (ruleAt eof (l :: ls)).body? = some body) :
    ∃ block, insideBlock? false (l :: ls) = some block ∧ body = (blockAhead block).1 := by
  rcases cases_of_ruleAt eof l ls with ⟨keyword, hrule, hinside⟩ | ⟨hrule, hinside⟩ <;>
    rw [hrule] at h <;> rw [hinside]
  · exact body_atRuleAhead h
  · cases hresult : (qualifiedAhead false eof (l :: ls)).1 with
    | error issue => rw [hresult] at h; cases h
    | ok rule => rw [hresult] at h; cases h; exact inside_qualifiedAhead hresult

theorem body_itemAt {body : Text} (h : (itemAt eof (l :: ls)).body? = some body) :
    ∃ block, insideBlock? true (l :: ls) = some block ∧ body = (blockAhead block).1 := by
  rcases cases_of_itemAt eof l ls with
    ⟨keyword, hitem, hinside⟩ | ⟨d, hitem⟩ | ⟨known, hitem, hinside⟩
  · rw [hitem] at h
    rw [hinside]
    exact body_atRuleAhead h
  · rw [hitem] at h
    cases h
  · rw [hitem] at h
    rw [hinside]
    cases hresult : (qualifiedAhead true eof (l :: ls)).1 with
    | error issue => rw [hresult] at h; cases h
    | ok rule => rw [hresult] at h; cases h; exact inside_qualifiedAhead hresult

end Readings

/-! ## A block is a proper part of its text -/

/-- The inside of a block stands in the text, and a character of the text stands outside of
it. -/
theorem properPart_of_insideBlock? {nested : Bool} {t : Text} {l : Lexeme}
    {ls block : List Lexeme} (hs : l :: ls <:+ lexemes t)
    (h : insideBlock? nested (l :: ls) = some block) :
    (blockAhead block).1 <:+: t ∧ (blockAhead block).1.length < t.length := by
  have hblock : block <:+ ls := insideBlock?_suffix h
  obtain ⟨front, hfront⟩ := hs
  obtain ⟨head, hhead⟩ := hblock
  obtain ⟨rest, hrest⟩ := blockAhead_prefix block
  have htext : Lexeme.sourceOf front ++ l.text ++ Lexeme.sourceOf head ++
      ((blockAhead block).1 ++ rest) = t := by
    have hsource := sourceOf_lexemes t
    rw [← hfront, ← hhead, Lexeme.sourceOf_append, Lexeme.sourceOf_cons,
      Lexeme.sourceOf_append, ← hrest] at hsource
    simpa only [List.append_assoc] using hsource
  have hl : l.text ≠ [] := by
    refine text_ne_nil_of_mem_lexemesFrom (p := .start) (t := t) ?_
    show l ∈ lexemes t
    rw [← hfront]
    exact List.mem_append_right _ List.mem_cons_self
  have hpos := List.length_pos_iff.mpr hl
  refine ⟨⟨_, rest, by rw [List.append_assoc]; exact htext⟩, ?_⟩
  have hlength := congrArg List.length htext
  simp only [List.length_append] at hlength
  omega

/-- **The block of every rule of a stylesheet is a proper part of the stylesheet.** -/
theorem body_of_mem_parseStylesheet {t body : Text} {rule : Rule} (h : rule ∈ parseStylesheet t)
    (hbody : rule.body? = some body) : body <:+: t ∧ body.length < t.length := by
  rw [parseStylesheet, rulesFrom_eq_map] at h
  obtain ⟨s, hs, rfl⟩ := List.mem_map.mp h
  obtain ⟨hne, hsuffix⟩ := ruleStarts_suffix hs
  obtain ⟨l, ls, rfl⟩ := List.exists_cons_of_ne_nil hne
  obtain ⟨block, hblock, rfl⟩ := body_ruleAt hbody
  exact properPart_of_insideBlock? hsuffix hblock

/-- **The block of every rule inside a block is a proper part of that block.** -/
theorem body_of_mem_parseBlock {t body : Text} {item : Item} (h : item ∈ parseBlock t)
    (hbody : item.body? = some body) : body <:+: t ∧ body.length < t.length := by
  rw [parseBlock, itemsFrom_eq_map] at h
  obtain ⟨s, hs, rfl⟩ := List.mem_map.mp h
  obtain ⟨hne, hsuffix⟩ := itemStarts_suffix hs
  obtain ⟨l, ls, rfl⟩ := List.exists_cons_of_ne_nil hne
  obtain ⟨block, hblock, rfl⟩ := body_itemAt hbody
  exact properPart_of_insideBlock? hsuffix hblock

end StyleAudit.Css
