import StyleAudit.Proofs.Css.Runs

/-!
# Texts without brackets, quotes and semicolons

A text is *flat* (`IsFlat`) when it holds none of the characters that open or close a bracket,
begin a string, a comment or an escape, or end a statement.  The tokens of a flat text are names,
numerals, white space and marks (`Token.isFlat_ahead`): none of them opens anything, and all of
them are whole.  So a flat text that does not end in white space has the same lexemes in front
of anything that stands apart (`pieces_append_of_isFlat`), and no run ends inside it
(`valuesUntil_append_of_notMem`).
-/

namespace StyleAudit.Css

/-- The characters that a flat text does without. -/
def brackets : Text :=
  ['(', ')', '[', ']', '\x7b', '\x7d', '"', '\'', '/', '\\', ';']

/-- Whether the text holds no bracket, quote, slash, backslash or semicolon. -/
def IsFlat (t : Text) : Prop := ∀ c ∈ t, c ∉ brackets

theorem IsFlat.suffix {t u : Text} (h : IsFlat t) (hu : u <:+ t) : IsFlat u :=
  fun c hc => h c (hu.subset hc)

/-- The tokens of flat texts: white space, names, numerals and marks. -/
def Token.isFlat : Token → Bool
  | comment | semicolon | opening _ | closing _ | string _ | badString _ | function _ | url _
  | badUrl _ => false
  | _ => true

/-- **The tokens of a flat text are flat.** -/
theorem Token.isFlat_ahead {c : Char} {t : Text} (h : IsFlat (c :: t)) :
    (Token.ahead c t).1.isFlat = true := by
  have hnumeric : ∀ u, (numericAhead u).1.isFlat = true := by
    intro u
    simp only [numericAhead]
    repeat' split
    all_goals rfl
  have hmatch : ∀ c token, token.isFlat = true → (matchAhead c token t).1.isFlat = true := by
    intro c token htoken
    unfold matchAhead
    split
    · exact htoken
    · rfl
  have hident : (identLikeAhead (c :: t)).1.isFlat = true := by
    rw [identLikeAhead_of_no_paren]
    · rfl
    · intro hparen
      obtain ⟨rest, hrest⟩ := List.head?_eq_some_iff.mp hparen
      have hmem : '(' ∈ (c :: t).drop (nameAhead (c :: t)).2 := by
        rw [hrest]
        exact List.mem_cons_self
      exact h '(' (List.mem_of_mem_drop hmem) (by decide)
  have hc : c ∉ brackets := h c List.mem_cons_self
  unfold Token.ahead
  split
  · rfl
  split
  · exact hnumeric _
  split
  · rfl
  split
  · exact hident
  unfold markAhead
  split
  case h_3 | h_4 | h_6 =>
    repeat' split
    all_goals rfl
  case h_7 | h_8 | h_9 | h_10 | h_11 => exact hmatch _ _ rfl
  case h_12 | h_14 | h_21 => rfl
  all_goals exact absurd (by decide) hc

section Flat

variable {token : Token} (h : token.isFlat = true)

include h

theorem Token.nesting_of_isFlat (stack : List Bracket) : token.nesting stack = stack := by
  cases token with
  | opening | closing | function => cases h
  | _ => rfl

theorem Token.opens?_of_isFlat : token.opens? = none := by
  cases token with
  | opening | function => cases h
  | _ => rfl

theorem Token.isWhole_of_isFlat (w : Text) : token.isWhole w = true := by
  cases token with
  | comment | string | badString | url | badUrl => cases h
  | _ => rfl

theorem Token.eq_space_of_isFlat (hblank : token.isBlank = true) : token = .space := by
  cases token with
  | space => rfl
  | comment => cases h
  | _ => cases hblank

theorem Token.endsHead_of_isFlat : endsHead token = false := by
  cases token with
  | opening | semicolon => cases h
  | _ => rfl

theorem Token.opensBlock_of_isFlat : opensBlock token = false := by
  cases token with
  | opening => cases h
  | _ => rfl

theorem Token.ne_closing_of_isFlat (b : Bracket) : (token == .closing b) = false := by
  cases token with
  | closing => cases h
  | _ => rfl

end Flat

/-! ## The pieces of flat texts -/

section Pieces

variable {t : Text} (hflat : IsFlat t)

include hflat

theorem isFlat_of_mem_pieces {l : Lexeme} (hl : l ∈ pieces t) : l.token.isFlat = true := by
  obtain ⟨c, v, s, -, hahead, hsuffix⟩ := exists_ahead_of_mem_pieces hl
  have h := Token.isFlat_ahead (hflat.suffix hsuffix)
  rwa [hahead] at h

/-- A flat text that does not end in white space does not end in a blank lexeme. -/
theorem not_isBlank_getLast?_pieces (hlast : ∀ x ∈ t.getLast?, isSpace x = false) :
    ∀ l ∈ (pieces t).getLast?, l.isBlank = false := by
  intro l hl
  rw [Bool.eq_false_iff]
  intro hblank
  have hmem : l ∈ pieces t := List.mem_of_getLast? hl
  have hspace := Token.eq_space_of_isFlat (isFlat_of_mem_pieces hflat hmem) hblank
  obtain ⟨front, hfront⟩ := List.getLast?_eq_some_iff.mp hl
  obtain ⟨c, v, -, htext, -, -⟩ := exists_ahead_of_mem_pieces hmem
  have hsource : Lexeme.sourceOf front ++ l.text = t := by
    have h := sourceOf_pieces t
    rwa [hfront, Lexeme.sourceOf_append, Lexeme.sourceOf_cons, Lexeme.sourceOf_nil,
      List.append_nil] at h
  -- the last character of the text is the last one of the white space
  have hend : t.getLast? = l.text.getLast? := by
    rw [← hsource, htext, List.getLast?_append_of_ne_nil _ (List.cons_ne_nil c v)]
  cases hx : l.text.getLast? with
  | none =>
    rw [htext] at hx
    cases hx
  | some x =>
    have hs := isSpace_of_mem_text hmem hspace x (List.mem_of_getLast? hx)
    rw [hlast x (hend.trans hx)] at hs
    cases hs

theorem cuttable_pieces (hlast : ∀ x ∈ t.getLast?, isSpace x = false) : Cuttable (pieces t) where
  noEscape := by
    rw [sourceOf_pieces]
    exact fun hmem => hflat _ hmem (by decide)
  whole := fun l hl => Token.isWhole_of_isFlat (isFlat_of_mem_pieces hflat hl) _
  ends := fun l hl => ⟨not_isBlank_getLast?_pieces hflat hlast l hl,
    Token.opens?_of_isFlat (isFlat_of_mem_pieces hflat (List.mem_of_getLast? hl))⟩

/-- **A flat text that does not end in white space** has the same pieces in front of anything
that stands apart. -/
theorem pieces_append_of_isFlat (hlast : ∀ x ∈ t.getLast?, isSpace x = false) {d : Text}
    (hd : StandsApart d) : pieces (t ++ d) = pieces t ++ pieces d := by
  have hsource := sourceOf_pieces t
  have h := pieces_sourceOf_append (cuttable_pieces hflat hlast) standsApart_nil hd (by
    rw [hsource, List.append_nil, pieces_nil, List.append_nil])
  rwa [hsource] at h

end Pieces

/-! ## Runs that nothing in them ends -/

section Runs

variable {stop : Token → Bool}

theorem endsHere_append_of_notMem {ls : List Lexeme} (hne : ls ≠ [])
    (hstop : ∀ l ∈ ls, stop l.token = false) (hlast : ∀ l ∈ ls.getLast?, l.isBlank = false)
    (rest : List Lexeme) : endsHere stop (ls ++ rest) = false := by
  induction ls with
  | nil => exact absurd rfl hne
  | cons l ls ih =>
    rw [List.cons_append]
    by_cases hblank : l.isBlank = true
    · rw [endsHere_cons_of_isBlank hblank]
      cases ls with
      | nil =>
        rw [hlast l rfl] at hblank
        cases hblank
      | cons m ls =>
        refine ih (List.cons_ne_nil m ls) (fun k hk => hstop k (List.mem_cons_of_mem _ hk)) ?_
        rwa [List.getLast?_cons_cons] at hlast
    · rw [endsHere_cons_of_not_isBlank hblank]
      exact hstop l List.mem_cons_self

/-- **Lexemes that open nothing and end no run** are a run of their own, in front of anything at
which a run ends. -/
theorem valuesUntil_append_of_notMem {ls : List Lexeme}
    (hstop : ∀ l ∈ ls, stop l.token = false) (hnest : ∀ l ∈ ls, l.token.nesting [] = [])
    (hlast : ∀ l ∈ ls.getLast?, l.isBlank = false) {rest : List Lexeme}
    (hrest : endsHere stop rest = true) : valuesUntil stop [] (ls ++ rest) = (ls, rest) := by
  induction ls with
  | nil => exact valuesUntil_of_endsHere hrest
  | cons l ls ih =>
    have hends := endsHere_append_of_notMem (List.cons_ne_nil l ls) hstop hlast rest
    have hlast' : ∀ m ∈ ls.getLast?, m.isBlank = false := by
      intro m hm
      refine hlast m ?_
      rw [List.getLast?_cons, hm]
      rfl
    rw [List.cons_append] at hends ⊢
    rw [valuesUntil, if_neg (by rw [hends]; exact Bool.false_ne_true),
      hnest l List.mem_cons_self, ih (fun m hm => hstop m (List.mem_cons_of_mem _ hm))
        (fun m hm => hnest m (List.mem_cons_of_mem _ hm)) hlast']

end Runs

end StyleAudit.Css
