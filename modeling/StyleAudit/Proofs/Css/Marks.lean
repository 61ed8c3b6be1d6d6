import StyleAudit.Proofs.Css.Cutting

/-!
# Marks and names

Some tokens are one character and nothing else (`Token.mark?`): what is known of the token is known
of its text.  A name is known by its end: what stands behind it would not have belonged to it, and
if that is a parenthesis, the parenthesis belongs to the token.

* `text_eq_of_mark?` --- the text of a mark;
* `behind_ident`, `text_eq_of_function` --- where a name ends.
-/

namespace StyleAudit.Css

/-! ## Marks -/

/-- The character that the token is, if it is one character and no name. -/
def Token.mark? : Token → Option Char
  | delim c => some c
  | colon => some ':'
  | semicolon => some ';'
  | comma => some ','
  | opening .round => some '('
  | opening .square => some '['
  | opening .curly => some '{'
  | closing .round => some ')'
  | closing .square => some ']'
  | closing .curly => some '}'
  | _ => none

theorem mark?_numericAhead (t : Text) : (numericAhead t).1.mark? = none := by
  simp only [numericAhead]
  split
  · rfl
  · split <;> rfl

/-- What runs on until its own end is no mark. -/
theorem Token.mark?_of_runsOn {token : Token} (h : token.runsOn = true) : token.mark? = none := by
  cases token with
  | space | comment | string | badString | function | url | badUrl => rfl
  | _ => cases h

theorem mark?_identLikeAhead (t : Text) : (identLikeAhead t).1.mark? = none := by
  by_cases hparen : (t.drop (nameAhead t).2).head? = some '('
  · obtain ⟨rest, hrest⟩ := List.head?_eq_some_iff.mp hparen
    exact Token.mark?_of_runsOn (runsOn_identLikeAhead hrest)
  · rw [identLikeAhead_of_no_paren hparen]
    rfl

theorem eq_of_markAhead {c b : Char} {t : Text} {token : Token} {n : Nat}
    (hat : markAhead c t = (token, n)) (h : token.mark? = some b) : c = b ∧ n = 1 := by
  have hquoted : ∀ quote, quotedAhead quote t ≠ (token, n) := by
    intro quote hat
    simp only [quotedAhead] at hat
    split at hat
    all_goals cases hat; cases h
  have hmatch : ∀ c token', token'.mark? = none → matchAhead c token' t = (token, n) →
      c = b ∧ n = 1 := by
    intro c token' hnone hat
    unfold matchAhead at hat
    split at hat
    · cases hat
      cases hnone.symm.trans h
    · cases hat
      exact ⟨Option.some.inj h, rfl⟩
  unfold markAhead at hat
  split at hat
  case h_1 | h_2 => exact absurd hat (hquoted _)
  case h_7 | h_8 | h_9 | h_10 | h_11 => exact hmatch _ _ rfl hat
  case h_3 | h_4 | h_5 | h_6 =>
    repeat' split at hat
    all_goals cases hat
    all_goals first | exact ⟨Option.some.inj h, rfl⟩ | cases h
  all_goals
    cases hat
    exact ⟨Option.some.inj h, rfl⟩

/-- **A mark is one character long**, and that character is the mark. -/
theorem mark?_ahead {c b : Char} {t : Text} (h : (Token.ahead c t).1.mark? = some b) :
    c = b ∧ (Token.ahead c t).2 = 1 := by
  rcases ahead_cases c t with ⟨-, hat⟩ | ⟨-, hat | hat | ⟨-, hat⟩ | hat⟩
  · rw [hat] at h
    cases h
  · rw [hat, mark?_numericAhead] at h
    cases h
  · rw [hat] at h
    cases h
  · rw [hat, mark?_identLikeAhead] at h
    cases h
  · rw [hat] at h ⊢
    exact eq_of_markAhead rfl h

/-- The text of a mark. -/
theorem text_eq_of_mark? {t : Text} {l : Lexeme} {b : Char} (hl : l ∈ pieces t)
    (h : l.token.mark? = some b) : l.text = [b] := by
  obtain ⟨c, v, s, htext, hahead, -⟩ := exists_ahead_of_mem_pieces hl
  have hmark : (Token.ahead c (v ++ s)).1.mark? = some b := by
    rw [hahead]
    exact h
  obtain ⟨rfl, hlen⟩ := mark?_ahead hmark
  rw [hahead, Nat.add_eq_right] at hlen
  rw [List.length_eq_zero_iff.mp hlen] at htext
  exact htext

/-- Behind a mark the rest of the text is read. -/
theorem exists_of_mark? {t : Text} {l : Lexeme} {ls : List Lexeme} {b : Char}
    (hls : pieces t = l :: ls) (h : l.token.mark? = some b) : ∃ s, t = b :: s ∧ pieces s = ls := by
  have htext := text_eq_of_mark? (t := t) (by rw [hls]; exact List.mem_cons_self) h
  obtain ⟨c, v, s, rfl, hcv, -, -, rfl⟩ := exists_of_pieces_eq_cons hls
  cases hcv.symm.trans htext
  exact ⟨s, rfl, rfl⟩

theorem text_eq_of_mem_lexemes {t : Text} {l : Lexeme} {b : Char} (hl : l ∈ lexemes t)
    (h : l.token.mark? = some b) : l.text = [b] :=
  text_eq_of_mark? (l := l.unplaced) (List.mem_map_of_mem hl) h

/-! ## Names -/

/-- Whether the token is a name, with or without a parenthesis behind it. -/
def Token.isWord : Token → Bool
  | ident _ | function _ => true
  | _ => false

theorem isWord_numericAhead (t : Text) : (numericAhead t).1.isWord = false := by
  simp only [numericAhead]
  split
  · rfl
  · split <;> rfl

theorem isWord_markAhead (c : Char) (t : Text) : (markAhead c t).1.isWord = false := by
  have hquoted : ∀ quote, (quotedAhead quote t).1.isWord = false := by
    intro quote
    simp only [quotedAhead]
    split <;> rfl
  have hmatch : ∀ c token, token.isWord = false → (matchAhead c token t).1.isWord = false := by
    intro c token htoken
    unfold matchAhead
    split
    · exact htoken
    · rfl
  unfold markAhead
  split
  case h_1 | h_2 => exact hquoted _
  case h_7 | h_8 | h_9 | h_10 | h_11 => exact hmatch _ _ rfl
  case h_3 | h_4 | h_5 | h_6 =>
    repeat' split
    all_goals rfl
  all_goals rfl

theorem ahead_of_isWord {c : Char} {t : Text} (h : (Token.ahead c t).1.isWord = true) :
    nameStartsAt (c :: t) = true ∧ Token.ahead c t = identLikeAhead (c :: t) := by
  rcases ahead_cases c t with ⟨-, hat⟩ | ⟨-, hat | hat | hat | hat⟩
  · rw [hat] at h
    cases h
  · rw [hat, isWord_numericAhead] at h
    cases h
  · rw [hat] at h
    cases h
  · exact hat
  · rw [hat, isWord_markAhead] at h
    cases h

/-- A name takes all characters of names. -/
theorem isNameChar_behind_nameAhead (t : Text) :
    ∀ x ∈ (t.drop (nameAhead t).2).head?, isNameChar x = false := by
  fun_induction nameAhead t with
  | case1 =>
    intro x hx
    cases hx
  | case2 t hnew =>
    intro x hx
    cases hx
    decide
  | case3 t hnew e r ih =>
    have hsplit : 1 + e.2 + r.2 = (e.2 + r.2) + 1 := by omega
    rwa [hsplit, List.drop_succ_cons, ← List.drop_drop]
  | case4 t r ih => rwa [Nat.add_comm, List.drop_succ_cons]
  | case5 c t hb hz hc r ih => rwa [Nat.add_comm, List.drop_succ_cons]
  | case6 c t hb hz hc =>
    intro x hx
    cases hx
    exact Bool.eq_false_iff.mpr hc

/-- **What stands behind a name** is neither a parenthesis nor a character of names. -/
theorem behind_ident {t name : Text} {l : Lexeme} {ls : List Lexeme} (hls : pieces t = l :: ls)
    (h : l.token = .ident name) :
    ∀ x ∈ (Lexeme.sourceOf ls).head?, isNameChar x = false ∧ x ≠ '(' := by
  obtain ⟨c, v, s, -, -, hahead, -, rfl⟩ := exists_of_pieces_eq_cons hls
  obtain ⟨-, hat⟩ := ahead_of_isWord (c := c) (t := v ++ s) (by rw [hahead, h]; rfl)
  rw [hahead] at hat
  have hparen : ((c :: (v ++ s)).drop (nameAhead (c :: (v ++ s))).2).head? ≠ some '(' := by
    intro hparen
    obtain ⟨rest, hrest⟩ := List.head?_eq_some_iff.mp hparen
    have hrun := runsOn_identLikeAhead hrest
    rw [← hat, h] at hrun
    cases hrun
  rw [identLikeAhead_of_no_paren hparen] at hat
  have hbehind : (c :: (v ++ s)).drop (nameAhead (c :: (v ++ s))).2 = s := by
    rw [← (Prod.mk.inj hat).2, List.drop_succ_cons, List.drop_left]
  have hname := isNameChar_behind_nameAhead (c :: (v ++ s))
  rw [hbehind] at hparen hname
  rw [sourceOf_pieces]
  refine fun x hx => ⟨hname x hx, ?_⟩
  rintro rfl
  exact hparen hx

/-- An address without quotes is no function. -/
theorem urlTokenAhead_of_function {name name' t : Text}
    (h : (urlTokenAhead name t).1 = .function name') : (urlTokenAhead name t).2 = 0 := by
  by_cases hquote : quoteAhead t
  · rw [urlTokenAhead_of_quote hquote]
  · cases hvalue : (urlAhead (t.dropWhile isSpace)).1 with
    | some value =>
      rw [urlTokenAhead_of_value hquote hvalue] at h
      cases h
    | none =>
      obtain ⟨contents, hbroken⟩ : ∃ contents, (urlTokenAhead name t).1 = .badUrl contents :=
        urlTokenAhead_of_broken hquote hvalue
      cases hbroken.symm.trans h

/-- The text of a function is a name and a parenthesis. -/
theorem text_eq_of_function {t name : Text} {l : Lexeme} (hl : l ∈ pieces t)
    (h : l.token = .function name) : ∃ w, w ≠ [] ∧ l.text = w ++ ['('] := by
  obtain ⟨c, v, s, htext, hahead, -⟩ := exists_ahead_of_mem_pieces hl
  obtain ⟨hstart, hat⟩ := ahead_of_isWord (c := c) (t := v ++ s) (by rw [hahead, h]; rfl)
  rw [hahead, h] at hat
  by_cases hparen : ((c :: (v ++ s)).drop (nameAhead (c :: (v ++ s))).2).head? = some '('
  · obtain ⟨rest, hrest⟩ := List.head?_eq_some_iff.mp hparen
    have hlen : v.length + 1 = (nameAhead (c :: (v ++ s))).2 + 1 := by
      rw [identLikeAhead_of_paren hrest] at hat
      split at hat
      · obtain ⟨htoken, hcount⟩ := Prod.mk.inj hat
        rw [hcount, urlTokenAhead_of_function htoken.symm]
      · exact (Prod.mk.inj hat).2
    have htake : c :: v = (c :: (v ++ s)).take (v.length + 1) := by
      rw [List.take_succ_cons, List.take_left]
    refine ⟨(c :: (v ++ s)).take (nameAhead (c :: (v ++ s))).2, ?_, ?_⟩
    · obtain ⟨n, hn⟩ := Nat.exists_eq_succ_of_ne_zero (Nat.ne_of_gt (nameAhead_pos hstart))
      rw [hn, List.take_succ_cons]
      exact List.cons_ne_nil _ _
    · rw [htext, htake, hlen, List.take_add, hrest]
      rfl
  · rw [identLikeAhead_of_no_paren hparen] at hat
    cases hat

end StyleAudit.Css
