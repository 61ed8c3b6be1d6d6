import StyleAudit.Proofs.Css.Starts

/-!
# Reading lexemes that were changed one by one

The grammar looks at the tokens of the lexemes, and at broken addresses only to see that they are
some.  A change that is made to each lexeme on its own and leaves that much of the tokens as it is
(`KeepsTokens`) may do anything to texts and places; it does not move a run, a block or the start
of a rule.  Each reader says what is left behind the thing it reads, and **what is left of the
changed lexemes is what was left, changed** (`ruleStarts_map`, `itemStarts_map`).
-/

namespace StyleAudit.Css

/-- The change of lexemes keeps all tokens, up to the contents of broken addresses. -/
def KeepsTokens (f : Lexeme → Lexeme) : Prop :=
  ∀ l, (f l).token = l.token ∨ ∃ v w, l.token = .badUrl v ∧ (f l).token = .badUrl w

/-- The declaration of a custom property begins with a name that begins with two hyphens,
and goes on with a colon. -/
theorem customPropertyAhead_cons {l : Lexeme} {ls : List Lexeme} :
    customPropertyAhead (l :: ls) = true ↔
      (∃ name, l.token = .ident ('-' :: '-' :: name)) ∧
        ∃ c rest, skipBlanks ls = c :: rest ∧ c.token = .colon := by
  simp only [customPropertyAhead]
  constructor
  · intro h
    split at h
    next name c rest hl hs => exact ⟨⟨name, hl⟩, c, rest, hs, by simpa using h⟩
    next => cases h
  · rintro ⟨⟨name, hl⟩, c, rest, hs, hc⟩
    rw [hl, hs]
    simpa using hc

section Relabel

variable {f : Lexeme → Lexeme} (hf : KeepsTokens f)

include hf

/-- What does not look into broken addresses sees no difference. -/
theorem KeepsTokens.eq {α : Type} {g : Token → α} (hg : ∀ v w, g (.badUrl v) = g (.badUrl w))
    (l : Lexeme) : g (f l).token = g l.token := by
  rcases hf l with h | ⟨v, w, hv, hw⟩
  · rw [h]
  · rw [hv, hw, hg]

theorem KeepsTokens.token_eq {token : Token} (h : ∀ v, token ≠ .badUrl v) (l : Lexeme) :
    (f l).token = token ↔ l.token = token := by
  rcases hf l with heq | ⟨v, w, hv, hw⟩
  · rw [heq]
  · rw [hv, hw]
    exact ⟨fun heq => absurd heq.symm (h w), fun heq => absurd heq.symm (h v)⟩

theorem KeepsTokens.isBlank (l : Lexeme) : (f l).isBlank = l.isBlank :=
  hf.eq (g := Token.isBlank) (fun _ _ => rfl) l

theorem KeepsTokens.opensBlock (l : Lexeme) :
    Css.opensBlock (f l).token = Css.opensBlock l.token :=
  hf.eq (fun _ _ => rfl) l

/-- Where the head of a qualified rule ends does not depend on the contents of broken
addresses. -/
theorem KeepsTokens.endsPrelude (nested : Bool) (l : Lexeme) :
    (if nested then endsHead else Css.opensBlock) (f l).token =
      (if nested then endsHead else Css.opensBlock) l.token := by
  cases nested <;> exact hf.eq (fun _ _ => rfl) l

/-! ## Runs and blocks -/

theorem skipBlanks_map (ls : List Lexeme) : skipBlanks (ls.map f) = (skipBlanks ls).map f := by
  rw [skipBlanks, skipBlanks, List.dropWhile_map]
  congr 2
  exact funext hf.isBlank

section Stop

variable {stop : Token → Bool} (hstop : ∀ l, stop (f l).token = stop l.token)

include hstop

theorem endsHere_map (ls : List Lexeme) : endsHere stop (ls.map f) = endsHere stop ls := by
  unfold endsHere
  rw [skipBlanks_map hf]
  cases skipBlanks ls with
  | nil => rfl
  | cons l ls => exact hstop l

/-- **A run of changed lexemes is the run, changed.** -/
theorem valuesUntil_map (stack : List Bracket) (ls : List Lexeme) :
    valuesUntil stop stack (ls.map f) =
      ((valuesUntil stop stack ls).1.map f, (valuesUntil stop stack ls).2.map f) := by
  induction ls generalizing stack with
  | nil => rfl
  | cons l ls ih =>
    have hends := endsHere_map hf hstop (l :: ls)
    have hnesting : (f l).token.nesting stack = l.token.nesting stack :=
      hf.eq (g := (Token.nesting · stack)) (fun _ _ => rfl) l
    rw [List.map_cons] at hends
    rw [List.map_cons, valuesUntil, valuesUntil, hends, hnesting, ih]
    split <;> rfl

/-- What is left from the end of a run on, the blanks before it passed over. -/
theorem skipBlanks_valuesUntil_map (ls : List Lexeme) :
    skipBlanks (valuesUntil stop [] (ls.map f)).2 =
      (skipBlanks (valuesUntil stop [] ls).2).map f := by
  rw [valuesUntil_map hf hstop, skipBlanks_map hf]

end Stop

theorem snd_blockAhead_map (ls : List Lexeme) :
    (blockAhead (ls.map f)).2 = (blockAhead ls).2.map f := by
  simp only [blockAhead]
  rw [skipBlanks_valuesUntil_map hf (hf.eq fun _ _ => rfl), List.map_tail]

theorem passOver_map {stop : Token → Bool} (hstop : ∀ l, stop (f l).token = stop l.token)
    (ls : List Lexeme) : passOver stop (ls.map f) = (passOver stop ls).map f := by
  unfold passOver
  rw [skipBlanks_valuesUntil_map hf hstop]
  cases skipBlanks (valuesUntil stop [] ls).2 with
  | nil => rfl
  | cons e rest =>
    simp only [List.map_cons, hf.opensBlock, snd_blockAhead_map hf]
    split <;> rfl

theorem customPropertyAhead_map (ls : List Lexeme) :
    customPropertyAhead (ls.map f) = customPropertyAhead ls := by
  cases ls with
  | nil => rfl
  | cons l ls =>
    have hident : ∀ name, (f l).token = .ident name ↔ l.token = .ident name := fun name =>
      hf.token_eq (fun _ => Token.noConfusion) l
    rw [List.map_cons, Bool.eq_iff_iff, customPropertyAhead_cons, customPropertyAhead_cons,
      skipBlanks_map hf]
    cases skipBlanks ls with
    | nil => simp
    | cons c rest =>
      have hcolon : (f c).token = .colon ↔ c.token = .colon :=
        hf.token_eq (fun _ => Token.noConfusion) c
      simp [hident, hcolon]

/-! ## What is left behind a rule -/

theorem snd_atRuleAhead_map (keyword : Text) (line line' : Nat) (ls : List Lexeme) :
    (atRuleAhead keyword line' (ls.map f)).2 = (atRuleAhead keyword line ls).2.map f := by
  simp only [atRuleAhead]
  rw [skipBlanks_valuesUntil_map hf (hf.eq fun _ _ => rfl)]
  cases skipBlanks (valuesUntil endsHead [] ls).2 with
  | nil => rfl
  | cons e rest =>
    simp only [List.map_cons, hf.opensBlock, snd_blockAhead_map hf]
    split <;> rfl

theorem snd_qualifiedAhead_map (nested : Bool) (eof eof' : Place) (ls : List Lexeme) :
    (qualifiedAhead nested eof' (ls.map f)).2 = (qualifiedAhead nested eof ls).2.map f := by
  have hpass : ∀ l, (if nested then (· == .semicolon) else opensBlock) (f l).token =
      (if nested then (· == Token.semicolon) else opensBlock) l.token := by
    cases nested <;> exact hf.eq fun _ _ => rfl
  simp only [qualifiedAhead]
  rw [customPropertyAhead_map hf, skipBlanks_valuesUntil_map hf (hf.endsPrelude nested),
    passOver_map hf hpass]
  by_cases hcustom : customPropertyAhead ls = true
  · rw [if_pos hcustom, if_pos hcustom]
  · rw [if_neg hcustom, if_neg hcustom]
    cases skipBlanks (valuesUntil (if nested then endsHead else opensBlock) [] ls).2 with
    | nil => rfl
    | cons e rest =>
      simp only [List.map_cons, hf.opensBlock]
      by_cases he : opensBlock e.token = true
      · rw [if_pos he, if_pos he, snd_blockAhead_map hf]
      · rw [if_neg he, if_neg he]

/-- A declaration is read, or it is not, whether the lexemes were changed or not. -/
theorem declarationAhead_map (eof eof' : Place) (name : Text) (ls : List Lexeme) :
    (∃ d d' rest, declarationAhead eof name ls = .ok (d, rest) ∧
        declarationAhead eof' name (ls.map f) = .ok (d', rest.map f)) ∨
      ∃ i i', declarationAhead eof name ls = .error i ∧
        declarationAhead eof' name (ls.map f) = .error i' := by
  unfold declarationAhead
  rw [skipBlanks_map hf]
  cases skipBlanks ls with
  | nil => exact .inr ⟨_, _, rfl, rfl⟩
  | cons l rest =>
    have hsemi : (f l).token = .semicolon ↔ l.token = .semicolon :=
      hf.token_eq (fun _ => Token.noConfusion) l
    have hcolon : (f l).token = .colon ↔ l.token = .colon :=
      hf.token_eq (fun _ => Token.noConfusion) l
    simp only [List.map_cons, hsemi, hcolon]
    by_cases h : l.token = .semicolon
    · rw [if_pos h, if_pos h]
      exact .inr ⟨_, _, rfl, rfl⟩
    rw [if_neg h, if_neg h]
    by_cases h : l.token = .colon
    · rw [if_pos h, if_pos h, skipBlanks_valuesUntil_map hf (hf.eq fun _ _ => rfl)]
      cases skipBlanks (valuesUntil endsHead [] rest).2 with
      | nil => exact .inl ⟨_, _, _, rfl, rfl⟩
      | cons e after =>
        simp only [List.map_cons, hf.opensBlock]
        by_cases he : opensBlock e.token = true
        · rw [if_pos he, if_pos he]
          exact .inr ⟨_, _, rfl, rfl⟩
        · rw [if_neg he, if_neg he]
          exact .inl ⟨_, _, _, rfl, rfl⟩
    · rw [if_neg h, if_neg h]
      exact .inr ⟨_, _, rfl, rfl⟩

/-! ## Where rules and items begin -/

/-- **The rules of a stylesheet begin where they began.** -/
theorem ruleStarts_map (eof eof' : Place) (first : Bool) (ls : List Lexeme) :
    ruleStarts eof' first (ls.map f) = (ruleStarts eof first ls).map (List.map f) := by
  have hseparates : ∀ l, separatesRules (f l).token = separatesRules l.token :=
    hf.eq fun _ _ => rfl
  have hkeyword : ∀ l keyword, (f l).token = .atKeyword keyword ↔ l.token = .atKeyword keyword :=
    fun l keyword => hf.token_eq (fun _ => Token.noConfusion) l
  fun_induction ruleStarts eof first ls with
  | case1 => rw [List.map_nil, ruleStarts_nil]; rfl
  | case2 first l ls hsep ih =>
    rw [List.map_cons, ruleStarts_of_separates ((hseparates l).trans hsep), ih]
  | case3 first l ls hsep keyword hk hfirst ih =>
    rw [List.map_cons, ruleStarts_of_charset ((hkeyword l keyword).mpr hk) hfirst,
      passOver_map hf (hf.eq fun _ _ => rfl), ih]
  | case4 first l ls hsep keyword hk hfirst ih =>
    rw [List.map_cons, ruleStarts_of_atKeyword ((hkeyword l keyword).mpr hk)
      (by simpa using hfirst), snd_atRuleAhead_map hf keyword l.start.line, ih]
    rfl
  | case5 first l ls hsep hk ih =>
    have hnext := snd_qualifiedAhead_map hf false eof eof' (l :: ls)
    rw [List.map_cons] at hnext
    rw [List.map_cons, ruleStarts_of_qualified ((hseparates l).trans (by simpa using hsep))
      (fun keyword h => hk keyword ((hkeyword l keyword).mp h)), hnext, ih]
    rfl

/-- **The items of a block begin where they began.** -/
theorem itemStarts_map (eof eof' : Place) (ls : List Lexeme) :
    itemStarts eof' (ls.map f) = (itemStarts eof ls).map (List.map f) := by
  have hseparates : ∀ l, separatesItems (f l).token = separatesItems l.token :=
    hf.eq fun _ _ => rfl
  have hkeyword : ∀ l keyword, (f l).token = .atKeyword keyword ↔ l.token = .atKeyword keyword :=
    fun l keyword => hf.token_eq (fun _ => Token.noConfusion) l
  have hident : ∀ l name, (f l).token = .ident name ↔ l.token = .ident name :=
    fun l name => hf.token_eq (fun _ => Token.noConfusion) l
  have hnext := fun l ls => snd_qualifiedAhead_map hf true eof eof' (l :: ls)
  simp only [List.map_cons] at hnext
  fun_induction itemStarts eof ls with
  | case1 => rw [List.map_nil, itemStarts_nil]; rfl
  | case2 l ls hsep ih =>
    rw [List.map_cons, itemStarts_of_separates ((hseparates l).trans hsep), ih]
  | case3 l ls hsep keyword hk ih =>
    rw [List.map_cons, itemStarts_of_atKeyword ((hkeyword l keyword).mpr hk),
      snd_atRuleAhead_map hf keyword l.start.line, ih]
    rfl
  | case4 l ls hsep name hi r hd ih =>
    rw [List.map_cons, itemStarts_of_ident ((hident l name).mpr hi)]
    rcases declarationAhead_map hf eof eof' name ls with ⟨d, d', rest, h, h'⟩ | ⟨i, i', h, -⟩
    · cases hd.symm.trans h
      simp only [h', ih]
      rfl
    · cases hd.symm.trans h
  | case5 l ls hsep name hi issue hd ih =>
    rw [List.map_cons, itemStarts_of_ident ((hident l name).mpr hi)]
    rcases declarationAhead_map hf eof eof' name ls with ⟨d, d', rest, h, -⟩ | ⟨i, i', h, h'⟩
    · cases hd.symm.trans h
    · simp only [h', hnext, ih]
      rfl
  | case6 l ls hsep hk hi ih =>
    rw [List.map_cons, itemStarts_of_qualified ((hseparates l).trans (by simpa using hsep))
      (fun keyword h => hk keyword ((hkeyword l keyword).mp h))
      (fun name h => hi name ((hident l name).mp h)), hnext, ih]
    rfl

end Relabel

end StyleAudit.Css
