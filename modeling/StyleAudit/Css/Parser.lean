import StyleAudit.Css.Nesting
import StyleAudit.Css.Rule
import StyleAudit.Text.Blank

/-!
# Reading stylesheets and blocks

Two lists are read with one set of rules.  A stylesheet (`parseStylesheet`) is a list of
rules.  The inside of a block (`parseBlock`) is a list of declarations and rules; it is
`nested`, and there a semicolon ends what a stylesheet would go on reading.

An identifier in a block may begin a declaration (`color: red`) or a rule (`a:hover { }`),
and which of the two cannot be seen from its first tokens.  The declaration is tried first.
If it fails, the same lexemes are read as a rule; if that fails as well, the fault reported
is the declaration's, and reading goes on behind what the *rule* took.

Both lists are read from lexemes.  A step takes at least the lexeme it starts with, which
is the measure by which the reading ends.
-/

namespace StyleAudit.Css

/-! ## Declarations -/

/-- The value of a declaration apart from the mark `!important` at its end, and whether the
mark is there.  Blanks may stand around the word, but no comment and no escape. -/
def splitImportance (value : Text) : Text × Bool :=
  let tail := "tnatropmi".toList
  let reversed := value.reverse
  if Text.sameName (reversed.take tail.length) tail then
    match (reversed.drop tail.length).dropWhile isBlank with
    | '!' :: before => (Text.trimEnd before.reverse, true)
    | _ => (value, false)
  else (value, false)

/-- A declaration behind its property name, and what is left behind its semicolon.  A colon
must come first; then the value runs to the semicolon and must have no block in it. -/
def declarationAhead (eof : Place) (name : Text) (ls : List Lexeme) :
    Except Issue (Declaration × List Lexeme) :=
  match skipBlanks ls with
  | [] => .error (Fault.unexpectedEnd.issueAt eof)
  | l :: rest =>
    if l.token = .semicolon then .error (Fault.unexpectedEnd.issueAt l.start)
    else if l.token = .colon then
      let r := valuesUntil endsHead [] rest
      let value := splitImportance (Text.trim (Lexeme.sourceOf r.1))
      match skipBlanks r.2 with
      | [] => .ok (⟨name, value.1, value.2⟩, [])
      | e :: after =>
        if opensBlock e.token then .error (Fault.blockInValue.issueAt e.stop)
        else .ok (⟨name, value.1, value.2⟩, after)
    else .error ((Fault.unexpectedToken l.token).issueAt (placeOf eof ls))

/-! ## Rules -/

/-- An at-rule behind its keyword, and what is left behind its semicolon or block. -/
def atRuleAhead (keyword : Text) (line : Nat) (ls : List Lexeme) : AtRule × List Lexeme :=
  let r := valuesUntil endsHead [] ls
  let condition := Text.trim (Lexeme.sourceOf r.1)
  match skipBlanks r.2 with
  | [] => (⟨keyword, condition, none, line⟩, [])
  | e :: rest =>
    if opensBlock e.token then
      let b := blockAhead rest
      (⟨keyword, condition, some b.1, line⟩, b.2)
    else (⟨keyword, condition, none, line⟩, rest)

/-- Whether the lexemes begin like the declaration of a custom property: a name with two
hyphens in front, and a colon. -/
def customPropertyAhead (ls : List Lexeme) : Bool :=
  match ls with
  | l :: rest =>
    match l.token, skipBlanks rest with
    | .ident ('-' :: '-' :: _), c :: _ => c.token == .colon
    | _, _ => false
  | [] => false

/-- What is left behind the statement or block that is passed over. -/
def passOver (stop : Token → Bool) (ls : List Lexeme) : List Lexeme :=
  match skipBlanks (valuesUntil stop [] ls).2 with
  | [] => []
  | e :: rest => if opensBlock e.token then (blockAhead rest).2 else rest

/-- A qualified rule or the reason why there is none, and what is left behind it. -/
def qualifiedAhead (nested : Bool) (eof : Place) (ls : List Lexeme) :
    Except Issue QualifiedRule × List Lexeme :=
  let start := placeOf eof ls
  if customPropertyAhead ls then
    (.error (Fault.customPropertyHead.issueAt start),
      passOver (if nested then (· == .semicolon) else opensBlock) ls)
  else
    let r := valuesUntil (if nested then endsHead else opensBlock) [] ls
    match skipBlanks r.2 with
    | [] => (.error (Fault.unexpectedEnd.issueAt eof), [])
    | e :: rest =>
      if opensBlock e.token then
        let b := blockAhead rest
        (.ok ⟨Text.trim (Lexeme.sourceOf r.1), b.1, start.line, e.stop.line⟩, b.2)
      else (.error ((Fault.unexpectedToken e.token).issueAt e.start), rest)

/-! ## Every step takes a lexeme -/

theorem declarationAhead_suffix {eof : Place} {name : Text} {ls : List Lexeme}
    {r : Declaration × List Lexeme} (h : declarationAhead eof name ls = .ok r) :
    r.2 <:+ ls := by
  have h₁ := skipBlanks_suffix ls
  unfold declarationAhead at h
  split at h
  · cases h
  next l rest hl =>
    rw [hl] at h₁
    have h₂ : rest <:+ ls := (List.suffix_cons l rest).trans h₁
    have h₃ := skipBlanks_valuesUntil_suffix endsHead [] rest
    split at h
    · cases h
    · split at h
      · simp only at h
        split at h
        · cases h
          exact List.nil_suffix
        next e after he =>
          rw [he] at h₃
          split at h
          · cases h
          · cases h
            exact (List.suffix_cons e after).trans (h₃.trans h₂)
      · cases h

theorem atRuleAhead_suffix (keyword : Text) (line : Nat) (ls : List Lexeme) :
    (atRuleAhead keyword line ls).2 <:+ ls := by
  have h₁ := skipBlanks_valuesUntil_suffix endsHead [] ls
  simp only [atRuleAhead]
  split
  · exact List.nil_suffix
  next e rest he =>
    rw [he] at h₁
    have h₂ : rest <:+ ls := (List.suffix_cons e rest).trans h₁
    split
    · exact (blockAhead_suffix rest).trans h₂
    · exact h₂

theorem suffix_tail_of_cons_suffix {α : Type} {a : α} {l m : List α} (h : a :: l <:+ m) :
    l <:+ m.tail := by
  obtain ⟨u, rfl⟩ := h
  cases u with
  | nil => exact List.suffix_rfl
  | cons b u => exact ⟨u ++ [a], by simp⟩

theorem passOver_suffix (stop : Token → Bool) (ls : List Lexeme) :
    passOver stop ls <:+ ls.tail := by
  have h₁ := skipBlanks_valuesUntil_suffix stop [] ls
  unfold passOver
  split
  · exact List.nil_suffix
  next e rest he =>
    rw [he] at h₁
    have h₂ := suffix_tail_of_cons_suffix h₁
    split
    · exact (blockAhead_suffix rest).trans h₂
    · exact h₂

theorem qualifiedAhead_suffix (nested : Bool) (eof : Place) (ls : List Lexeme) :
    (qualifiedAhead nested eof ls).2 <:+ ls.tail := by
  simp only [qualifiedAhead]
  split
  · exact passOver_suffix _ _
  · have h₁ := skipBlanks_valuesUntil_suffix (if nested then endsHead else opensBlock) [] ls
    split
    · exact List.nil_suffix
    next e rest he =>
      rw [he] at h₁
      have h₂ := suffix_tail_of_cons_suffix h₁
      split
      · exact (blockAhead_suffix rest).trans h₂
      · exact h₂

/-! ## Stylesheets -/

/-- A qualified rule or its fault, as an entry of a stylesheet. -/
def Rule.ofResult : Except Issue QualifiedRule → Rule
  | .ok r => .qualified r
  | .error issue => .error issue

/-- Whether the token may stand between the rules of a stylesheet. -/
def separatesRules : Token → Bool
  | .space | .comment | .commentOpen | .commentClose => true
  | _ => false

/-- The rules of a stylesheet.  A rule `@charset` that comes first of all is passed over
without a trace. -/
def rulesFrom (eof : Place) (first : Bool) : List Lexeme → List Rule
  | [] => []
  | l :: ls =>
    if separatesRules l.token then rulesFrom eof first ls
    else
      match l.token with
      | .atKeyword keyword =>
        if first && keyword.sameName "charset".toList then
          rulesFrom eof false (passOver endsHead ls)
        else
          let r := atRuleAhead keyword l.start.line ls
          .atRule r.1 :: rulesFrom eof false r.2
      | _ =>
        let r := qualifiedAhead false eof (l :: ls)
        Rule.ofResult r.1 :: rulesFrom eof false r.2
termination_by ls => ls.length
decreasing_by
  · simp only [List.length_cons]; omega
  · have := (passOver_suffix endsHead ls).length_le
    simp only [List.length_cons, List.length_tail] at this ⊢; omega
  · have := (atRuleAhead_suffix keyword l.start.line ls).length_le
    simp only [List.length_cons]; omega
  · have := (qualifiedAhead_suffix false eof (l :: ls)).length_le
    simp only [List.length_cons, List.tail_cons] at this ⊢; omega

section Steps

variable {eof : Place} {first : Bool} {l : Lexeme} {ls : List Lexeme}

@[simp] theorem rulesFrom_nil : rulesFrom eof first [] = [] := by rw [rulesFrom]

theorem rulesFrom_of_separates (h : separatesRules l.token = true) :
    rulesFrom eof first (l :: ls) = rulesFrom eof first ls := by
  rw [rulesFrom, if_pos h]

theorem rulesFrom_of_charset {keyword : Text} (hk : l.token = .atKeyword keyword)
    (h : (first && keyword.sameName "charset".toList) = true) :
    rulesFrom eof first (l :: ls) = rulesFrom eof false (passOver endsHead ls) := by
  rw [rulesFrom, if_neg (by simp [hk, separatesRules]), hk]
  simp only [h, if_true]

theorem rulesFrom_of_atKeyword {keyword : Text} (hk : l.token = .atKeyword keyword)
    (h : (first && keyword.sameName "charset".toList) = false) :
    rulesFrom eof first (l :: ls) =
      .atRule (atRuleAhead keyword l.start.line ls).1 ::
        rulesFrom eof false (atRuleAhead keyword l.start.line ls).2 := by
  rw [rulesFrom, if_neg (by simp [hk, separatesRules]), hk]
  simp only [h, Bool.false_eq_true, if_false]

theorem rulesFrom_of_qualified (hsep : separatesRules l.token = false)
    (hk : ∀ keyword, l.token ≠ .atKeyword keyword) :
    rulesFrom eof first (l :: ls) =
      Rule.ofResult (qualifiedAhead false eof (l :: ls)).1 ::
        rulesFrom eof false (qualifiedAhead false eof (l :: ls)).2 := by
  rw [rulesFrom, if_neg (by simp [hsep])]
  split
  next keyword h => exact absurd h (hk keyword)
  next => rfl

end Steps

/-- **The rules of a stylesheet**, with an issue in the place of each that cannot be
read. -/
def parseStylesheet (t : Text) : List Rule := rulesFrom (endPlace t) true (lexemes t)

/-! ## Blocks -/

/-- Whether the token may stand between the items of a block. -/
def separatesItems : Token → Bool
  | .space | .comment | .semicolon | .closing .curly => true
  | _ => false

/-- A nested rule, or the issue in its place: the one that is known already, if there is
one, else the rule's own. -/
def Item.ofResult (known : Option Issue) : Except Issue QualifiedRule → Item
  | .ok r => .rule (.qualified r)
  | .error issue => .error (known.getD issue)

/-- The items of a block. -/
def itemsFrom (eof : Place) : List Lexeme → List Item
  | [] => []
  | l :: ls =>
    if separatesItems l.token then itemsFrom eof ls
    else
      match l.token with
      | .atKeyword keyword =>
        let r := atRuleAhead keyword l.start.line ls
        .rule (.atRule r.1) :: itemsFrom eof r.2
      | .ident name =>
        match _h : declarationAhead eof name ls with
        | .ok (d, rest) => .declaration d :: itemsFrom eof rest
        | .error issue =>
          let r := qualifiedAhead true eof (l :: ls)
          Item.ofResult (some issue) r.1 :: itemsFrom eof r.2
      | _ =>
        let r := qualifiedAhead true eof (l :: ls)
        Item.ofResult none r.1 :: itemsFrom eof r.2
termination_by ls => ls.length
decreasing_by
  · simp only [List.length_cons]; omega
  · have := (atRuleAhead_suffix keyword l.start.line ls).length_le
    simp only [List.length_cons]; omega
  · have := (declarationAhead_suffix _h).length_le
    simp only [List.length_cons] at this ⊢; omega
  all_goals
    have := (qualifiedAhead_suffix true eof (l :: ls)).length_le
    simp only [List.length_cons, List.tail_cons] at this ⊢; omega

section Steps

variable {eof : Place} {l : Lexeme} {ls : List Lexeme}

@[simp] theorem itemsFrom_nil : itemsFrom eof [] = [] := by rw [itemsFrom]

theorem itemsFrom_of_separates (h : separatesItems l.token = true) :
    itemsFrom eof (l :: ls) = itemsFrom eof ls := by
  rw [itemsFrom, if_pos h]

theorem itemsFrom_of_atKeyword {keyword : Text} (hk : l.token = .atKeyword keyword) :
    itemsFrom eof (l :: ls) =
      .rule (.atRule (atRuleAhead keyword l.start.line ls).1) ::
        itemsFrom eof (atRuleAhead keyword l.start.line ls).2 := by
  rw [itemsFrom, if_neg (by simp [hk, separatesItems]), hk]

theorem itemsFrom_of_declaration {name : Text} {d : Declaration} {rest : List Lexeme}
    (hk : l.token = .ident name) (h : declarationAhead eof name ls = .ok (d, rest)) :
    itemsFrom eof (l :: ls) = .declaration d :: itemsFrom eof rest := by
  rw [itemsFrom, if_neg (by simp [hk, separatesItems])]
  split
  next hk' => rw [hk] at hk'; cases hk'
  next hk' =>
    rw [hk] at hk'
    cases hk'
    split
    next h' => rw [h] at h'; cases h'; rfl
    next h' => rw [h] at h'; cases h'
  next _ hk' => exact absurd hk (hk' name)

theorem itemsFrom_of_retried {name : Text} {issue : Issue} (hk : l.token = .ident name)
    (h : declarationAhead eof name ls = .error issue) :
    itemsFrom eof (l :: ls) =
      Item.ofResult (some issue) (qualifiedAhead true eof (l :: ls)).1 ::
        itemsFrom eof (qualifiedAhead true eof (l :: ls)).2 := by
  rw [itemsFrom, if_neg (by simp [hk, separatesItems])]
  split
  next hk' => rw [hk] at hk'; cases hk'
  next hk' =>
    rw [hk] at hk'
    cases hk'
    split
    next h' => rw [h] at h'; cases h'
    next h' => rw [h] at h'; cases h'; rfl
  next _ hk' => exact absurd hk (hk' name)

theorem itemsFrom_of_qualified (hsep : separatesItems l.token = false)
    (hk : ∀ keyword, l.token ≠ .atKeyword keyword) (hi : ∀ name, l.token ≠ .ident name) :
    itemsFrom eof (l :: ls) =
      Item.ofResult none (qualifiedAhead true eof (l :: ls)).1 ::
        itemsFrom eof (qualifiedAhead true eof (l :: ls)).2 := by
  rw [itemsFrom, if_neg (by simp [hsep])]
  split
  next keyword h => exact absurd h (hk keyword)
  next name h => exact absurd h (hi name)
  next => rfl

end Steps

/-- **The items of a block**, given the text between its braces. -/
def parseBlock (t : Text) : List Item := itemsFrom (endPlace t) (lexemes t)

/-- The items of a rule's block. -/
def QualifiedRule.items (r : QualifiedRule) : List Item := parseBlock r.body

/-- The declarations of a rule's block. -/
def QualifiedRule.declarations (r : QualifiedRule) : List Declaration :=
  Item.declarations r.items

/-- The inside of an at-rule's block, read as a stylesheet; nothing if it has no block. -/
def AtRule.rules (r : AtRule) : List Rule :=
  match r.body with
  | none => []
  | some body => parseStylesheet body

end StyleAudit.Css
