import StyleAudit.Css.Size
import StyleAudit.Proofs.Css.Relabel

/-!
# Reading does not look at places

Where a lexeme stands in its text is carried along for the sake of the lines in rules and
issues, and for nothing else: which rules a stylesheet has, and what is in them, depends on
the tokens and their texts alone.  To say so, everything that has a place is brought to one
and the same place (`unplaced`), and reading commutes with that.

The use of it is that texts can be compared piece by piece.  The `pieces` of a text are its
lexemes without their places, so the pieces of a stretch do not depend on what stands before
it, and the rules of a stylesheet, lines aside, are a function of its pieces
(`map_unplaced_parseStylesheet`).  The same holds of the items of a block
(`map_unplaced_parseBlock`).
-/

namespace StyleAudit.Css

/-! ## Forgetting places -/

/-- The lexeme as it would stand at the beginning of a text. -/
def Lexeme.unplaced (l : Lexeme) : Lexeme := { l with start := .start }

/-- The issue without its place. -/
def Issue.unplaced (i : Issue) : Issue := { i with line := 0, column := 0 }

/-- The rule without its lines. -/
def QualifiedRule.unplaced (r : QualifiedRule) : QualifiedRule :=
  { r with line := 0, bodyLine := 0 }

/-- The rule without its line. -/
def AtRule.unplaced (r : AtRule) : AtRule := { r with line := 0 }

/-- The rule or issue without its lines. -/
def Rule.unplaced : Rule → Rule
  | .qualified r => .qualified r.unplaced
  | .atRule r => .atRule r.unplaced
  | .error i => .error i.unplaced

/-- The item without its lines. -/
def Item.unplaced : Item → Item
  | .declaration d => .declaration d
  | .rule r => .rule r.unplaced
  | .error i => .error i.unplaced

/-- The outcome of reading a qualified rule, without lines. -/
def unplacedResult : Except Issue QualifiedRule → Except Issue QualifiedRule
  | .ok r => .ok r.unplaced
  | .error i => .error i.unplaced

@[simp] theorem Lexeme.token_unplaced (l : Lexeme) : l.unplaced.token = l.token := rfl

theorem Rule.unplaced_ofResult (r : Except Issue QualifiedRule) :
    (Rule.ofResult r).unplaced = Rule.ofResult (unplacedResult r) := by
  cases r <;> rfl

theorem Item.unplaced_ofResult (known : Option Issue) (r : Except Issue QualifiedRule) :
    (Item.ofResult known r).unplaced =
      Item.ofResult (known.map Issue.unplaced) (unplacedResult r) := by
  cases r with
  | ok r => rfl
  | error i => cases known <;> rfl

/-- What a rule is written as does not depend on its lines. -/
theorem Rule.serialize_unplaced (r : Rule) : r.unplaced.serialize = r.serialize := by
  cases r <;> rfl

/-! ## Runs and blocks -/

theorem sourceOf_map_unplaced (ls : List Lexeme) :
    Lexeme.sourceOf (ls.map Lexeme.unplaced) = Lexeme.sourceOf ls := by
  induction ls with
  | nil => rfl
  | cons l ls ih => rw [List.map_cons, Lexeme.sourceOf_cons, ih, Lexeme.sourceOf_cons]; rfl

theorem keepsTokens_unplaced : KeepsTokens Lexeme.unplaced := fun _ => .inl rfl

theorem skipBlanks_map_unplaced (ls : List Lexeme) :
    skipBlanks (ls.map Lexeme.unplaced) = (skipBlanks ls).map Lexeme.unplaced :=
  skipBlanks_map keepsTokens_unplaced ls

theorem valuesUntil_map_unplaced (stop : Token → Bool) (stack : List Bracket)
    (ls : List Lexeme) :
    valuesUntil stop stack (ls.map Lexeme.unplaced) =
      ((valuesUntil stop stack ls).1.map Lexeme.unplaced,
        (valuesUntil stop stack ls).2.map Lexeme.unplaced) :=
  valuesUntil_map keepsTokens_unplaced (fun _ => rfl) stack ls

theorem blockAhead_map_unplaced (ls : List Lexeme) :
    blockAhead (ls.map Lexeme.unplaced) =
      ((blockAhead ls).1, (blockAhead ls).2.map Lexeme.unplaced) := by
  simp only [blockAhead, valuesUntil_map_unplaced, sourceOf_map_unplaced,
    skipBlanks_map_unplaced, List.map_tail]

theorem passOver_map_unplaced (stop : Token → Bool) (ls : List Lexeme) :
    passOver stop (ls.map Lexeme.unplaced) = (passOver stop ls).map Lexeme.unplaced :=
  passOver_map keepsTokens_unplaced (fun _ => rfl) ls

/-! ## Rules and declarations -/

theorem atRuleAhead_map_unplaced (keyword : Text) (line line' : Nat) (ls : List Lexeme) :
    (atRuleAhead keyword line' (ls.map Lexeme.unplaced)).1.unplaced =
        (atRuleAhead keyword line ls).1.unplaced ∧
      (atRuleAhead keyword line' (ls.map Lexeme.unplaced)).2 =
        (atRuleAhead keyword line ls).2.map Lexeme.unplaced := by
  refine ⟨?_, snd_atRuleAhead_map keepsTokens_unplaced keyword line line' ls⟩
  simp only [atRuleAhead, valuesUntil_map_unplaced, sourceOf_map_unplaced,
    skipBlanks_map_unplaced]
  cases skipBlanks (valuesUntil endsHead [] ls).2 with
  | nil => rfl
  | cons e rest =>
    simp only [List.map_cons, Lexeme.token_unplaced, blockAhead_map_unplaced]
    split <;> rfl

theorem qualifiedAhead_map_unplaced (nested : Bool) (eof eof' : Place) (ls : List Lexeme) :
    unplacedResult (qualifiedAhead nested eof' (ls.map Lexeme.unplaced)).1 =
        unplacedResult (qualifiedAhead nested eof ls).1 ∧
      (qualifiedAhead nested eof' (ls.map Lexeme.unplaced)).2 =
        (qualifiedAhead nested eof ls).2.map Lexeme.unplaced := by
  refine ⟨?_, snd_qualifiedAhead_map keepsTokens_unplaced nested eof eof' ls⟩
  simp only [qualifiedAhead, customPropertyAhead_map keepsTokens_unplaced,
    valuesUntil_map_unplaced, sourceOf_map_unplaced, skipBlanks_map_unplaced]
  by_cases hcustom : customPropertyAhead ls = true
  · rw [if_pos hcustom, if_pos hcustom]
    rfl
  · rw [if_neg hcustom, if_neg hcustom]
    generalize skipBlanks (valuesUntil (if nested then endsHead else opensBlock) [] ls).2 = tail
    cases tail with
    | nil => rfl
    | cons e rest =>
      simp only [List.map_cons, Lexeme.token_unplaced, blockAhead_map_unplaced]
      by_cases he : opensBlock e.token = true
      · rw [if_pos he, if_pos he]
        rfl
      · rw [if_neg he, if_neg he]
        rfl

/-- A declaration is read alike, and fails alike up to the place. -/
theorem declarationAhead_map_unplaced (eof eof' : Place) (name : Text) (ls : List Lexeme) :
    (∃ d rest, declarationAhead eof name ls = .ok (d, rest) ∧
        declarationAhead eof' name (ls.map Lexeme.unplaced) =
          .ok (d, rest.map Lexeme.unplaced)) ∨
      ∃ i i', declarationAhead eof name ls = .error i ∧
        declarationAhead eof' name (ls.map Lexeme.unplaced) = .error i' ∧
          i'.unplaced = i.unplaced := by
  unfold declarationAhead
  rw [skipBlanks_map_unplaced]
  cases skipBlanks ls with
  | nil => exact .inr ⟨_, _, rfl, rfl, rfl⟩
  | cons l rest =>
    simp only [List.map_cons]
    by_cases hsemi : l.token = .semicolon
    · rw [if_pos hsemi, if_pos (show l.unplaced.token = .semicolon from hsemi)]
      exact .inr ⟨_, _, rfl, rfl, rfl⟩
    rw [if_neg hsemi, if_neg (show l.unplaced.token ≠ .semicolon from hsemi)]
    by_cases hcolon : l.token = .colon
    · rw [if_pos hcolon, if_pos (show l.unplaced.token = .colon from hcolon)]
      simp only [valuesUntil_map_unplaced, sourceOf_map_unplaced, skipBlanks_map_unplaced]
      generalize skipBlanks (valuesUntil endsHead [] rest).2 = tail
      cases tail with
      | nil => exact .inl ⟨_, _, rfl, rfl⟩
      | cons e after =>
        simp only [List.map_cons]
        by_cases he : opensBlock e.token = true
        · rw [if_pos he, if_pos (show opensBlock e.unplaced.token = true from he)]
          exact .inr ⟨_, _, rfl, rfl, rfl⟩
        · rw [if_neg he, if_neg (show ¬ opensBlock e.unplaced.token = true from he)]
          exact .inl ⟨_, _, rfl, rfl⟩
    · rw [if_neg hcolon, if_neg (show l.unplaced.token ≠ .colon from hcolon)]
      exact .inr ⟨_, _, rfl, rfl, rfl⟩

/-! ## Stylesheets and blocks -/

theorem rulesFrom_map_unplaced (eof eof' : Place) (first : Bool) (ls : List Lexeme) :
    (rulesFrom eof' first (ls.map Lexeme.unplaced)).map Rule.unplaced =
      (rulesFrom eof first ls).map Rule.unplaced := by
  fun_induction rulesFrom eof first ls with
  | case1 => rw [List.map_nil, rulesFrom_nil]
  | case2 first l ls hsep ih =>
    rw [List.map_cons, rulesFrom_of_separates (l := l.unplaced) hsep, ih]
  | case3 first l ls hsep keyword hk hfirst ih =>
    rw [List.map_cons, rulesFrom_of_charset (l := l.unplaced) hk hfirst,
      passOver_map_unplaced, ih]
  | case4 first l ls hsep keyword hk hfirst r ih =>
    have h := atRuleAhead_map_unplaced keyword l.start.line l.unplaced.start.line ls
    rw [List.map_cons, rulesFrom_of_atKeyword (l := l.unplaced) hk (by simpa using hfirst),
      List.map_cons, List.map_cons, h.2, ih, Rule.unplaced, h.1]
    rfl
  | case5 first l ls hsep r hk ih =>
    have h := qualifiedAhead_map_unplaced false eof eof' (l :: ls)
    rw [List.map_cons] at h
    rw [List.map_cons, rulesFrom_of_qualified (l := l.unplaced) (by simpa using hsep) hk,
      List.map_cons, List.map_cons, h.2, ih, Rule.unplaced_ofResult, Rule.unplaced_ofResult, h.1]

theorem itemsFrom_map_unplaced (eof eof' : Place) (ls : List Lexeme) :
    (itemsFrom eof' (ls.map Lexeme.unplaced)).map Item.unplaced =
      (itemsFrom eof ls).map Item.unplaced := by
  fun_induction itemsFrom eof ls with
  | case1 => rw [List.map_nil, itemsFrom_nil]
  | case2 l ls hsep ih => rw [List.map_cons, itemsFrom_of_separates (l := l.unplaced) hsep, ih]
  | case3 l ls hsep keyword hk r ih =>
    have h := atRuleAhead_map_unplaced keyword l.start.line l.unplaced.start.line ls
    rw [List.map_cons, itemsFrom_of_atKeyword (l := l.unplaced) hk, List.map_cons,
      List.map_cons, h.2, ih, Item.unplaced, Rule.unplaced, h.1]
    rfl
  | case4 l ls hsep name hk d rest hd ih =>
    rcases declarationAhead_map_unplaced eof eof' name ls with
      ⟨d', rest', h, h'⟩ | ⟨i, i', h, -, -⟩
    · cases hd.symm.trans h
      rw [List.map_cons, itemsFrom_of_declaration (l := l.unplaced) hk h', List.map_cons,
        List.map_cons, ih]
    · cases hd.symm.trans h
  | case5 l ls hsep name hk issue hd r ih =>
    have hq := qualifiedAhead_map_unplaced true eof eof' (l :: ls)
    rw [List.map_cons] at hq
    rcases declarationAhead_map_unplaced eof eof' name ls with
      ⟨d', rest', h, -⟩ | ⟨i, i', h, h', hi⟩
    · cases hd.symm.trans h
    · cases hd.symm.trans h
      rw [List.map_cons, itemsFrom_of_retried (l := l.unplaced) hk h', List.map_cons,
        List.map_cons, hq.2, ih, Item.unplaced_ofResult, Item.unplaced_ofResult, hq.1,
        Option.map_some, Option.map_some, hi]
  | case6 l ls hsep r hk hi ih =>
    have hq := qualifiedAhead_map_unplaced true eof eof' (l :: ls)
    rw [List.map_cons] at hq
    rw [List.map_cons, itemsFrom_of_qualified (l := l.unplaced) (by simpa using hsep) hk hi,
      List.map_cons, List.map_cons, hq.2, ih, Item.unplaced_ofResult, Item.unplaced_ofResult,
      hq.1]

/-! ## The pieces of a text -/

/-- The lexemes of a text, all at one place. -/
def pieces (t : Text) : List Lexeme := (lexemes t).map Lexeme.unplaced

/-- The pieces of a text do not depend on where it begins. -/
theorem map_unplaced_lexemesFrom (p q : Place) (t : Text) :
    (lexemesFrom p t).map Lexeme.unplaced = (lexemesFrom q t).map Lexeme.unplaced := by
  fun_induction lexemesFrom p t generalizing q with
  | case1 => rw [lexemesFrom]
  | case2 p c t found taken ih =>
    rw [lexemesFrom, List.map_cons, List.map_cons, ih]
    rfl

@[simp] theorem pieces_nil : pieces [] = [] := by rw [pieces, lexemes, lexemesFrom, List.map_nil]

/-- The first piece is the token in front, and the others are the pieces of what is left. -/
theorem pieces_cons (c : Char) (t : Text) :
    pieces (c :: t) = ⟨(Token.ahead c t).1, (c :: t).take (Token.ahead c t).2, .start⟩ ::
      pieces ((c :: t).drop (Token.ahead c t).2) := by
  rw [pieces, lexemes, lexemesFrom, List.map_cons]
  exact congrArg _ (map_unplaced_lexemesFrom _ _ _)

theorem sourceOf_pieces (t : Text) : Lexeme.sourceOf (pieces t) = t := by
  rw [pieces, sourceOf_map_unplaced, sourceOf_lexemes]

/-- **The rules of a stylesheet, lines aside, depend on its pieces alone.** -/
theorem map_unplaced_parseStylesheet (eof : Place) (t : Text) :
    (parseStylesheet t).map Rule.unplaced =
      (rulesFrom eof true (pieces t)).map Rule.unplaced :=
  (rulesFrom_map_unplaced _ _ _ _).symm

/-- **The items of a block, lines aside, depend on its pieces alone.** -/
theorem map_unplaced_parseBlock (eof : Place) (t : Text) :
    (parseBlock t).map Item.unplaced = (itemsFrom eof (pieces t)).map Item.unplaced :=
  (itemsFrom_map_unplaced _ _ _).symm

end StyleAudit.Css
