import StyleAudit.Proofs.Css.Cutting

/-!
# Letters

A letter begins a name and nothing else: no numeral begins with one, and it is neither white space
nor a blank.  So a word, a letter with characters of names behind it, is one lexeme, whatever stands
apart behind it (`pieces_word_append`).
-/

namespace StyleAudit.Css

theorem isAlphanum_of_isAlpha {c : Char} (h : c.isAlpha = true) : c.isAlphanum = true := by
  rw [Char.isAlphanum, h, Bool.true_or]

/-- The letters are in two ranges. -/
theorem toNat_of_isAlpha {c : Char} (h : c.isAlpha = true) :
    (65 ≤ c.toNat ∧ c.toNat ≤ 90) ∨ (97 ≤ c.toNat ∧ c.toNat ≤ 122) := by
  rcases Bool.or_eq_true_iff.mp h with hupper | hlower
  · exact .inl (of_decide_eq_true hupper)
  · obtain ⟨hge, hle⟩ := Bool.and_eq_true_iff.mp hlower
    exact .inr ⟨of_decide_eq_true hge, of_decide_eq_true hle⟩

theorem isDigit_of_isAlpha {c : Char} (h : c.isAlpha = true) : c.isDigit = false := by
  rw [Bool.eq_false_iff, Ne, Char.isDigit_iff_toNat]
  intro hdigit
  have hle : c.toNat ≤ 57 := hdigit.2
  have hcode := toNat_of_isAlpha h
  omega

theorem isNameStart_of_isAlpha {c : Char} (h : c.isAlpha = true) : isNameStart c = true := by
  rw [isNameStart, h]
  rfl

theorem ne_of_isAlpha {c x : Char} (h : c.isAlpha = true) (hx : x.isAlpha = false) : c ≠ x := by
  rintro rfl
  rw [h] at hx
  cases hx

theorem isSpace_of_isAlpha {c : Char} (h : c.isAlpha = true) : isSpace c = false := by
  rw [Bool.eq_false_iff]
  intro hs
  have hfalse := (by decide : ∀ c ∈ boundaries, c.isAlpha = false) c (mem_boundaries_of_isSpace hs)
  rw [h] at hfalse
  cases hfalse

theorem isBlank_of_isAlpha {c : Char} (h : c.isAlpha = true) : isBlank c = false := by
  have hcode := toNat_of_isAlpha h
  rw [Bool.eq_false_iff]
  intro hblank
  simp only [isBlank, Bool.or_eq_true, Bool.and_eq_true, decide_eq_true_eq, beq_iff_eq] at hblank
  omega

/-- No numeral begins with a letter. -/
theorem numeralStartsAt_of_isAlpha {c : Char} (h : c.isAlpha = true) (t : Text) :
    numeralStartsAt (c :: t) = false := by
  have hsign : Sign.ahead? (c :: t) = none := by
    show Sign.ofChar? c = none
    unfold Sign.ofChar?
    split
    next => cases h
    next => cases h
    next => rfl
  have hfraction : Numeral.fractionAhead (c :: t) = [] := by
    unfold Numeral.fractionAhead
    split
    next heq =>
      cases heq
      cases h
    next => rfl
  simp only [numeralStartsAt, hsign, Option.toList_none, List.length_nil, List.drop_zero,
    hfraction]
  show (c.isDigit || !([] : Text).isEmpty) = false
  rw [isDigit_of_isAlpha h]
  rfl

/-- **A word is an identifier**, whatever stands apart behind it. -/
theorem pieces_word_append {c : Char} {t d : Text} (hc : c.isAlpha = true)
    (ht : ∀ x ∈ t, isNameChar x = true) (hd : StandsApart d) :
    pieces (c :: t ++ d) = ⟨.ident (c :: t), c :: t, .start⟩ :: pieces d := by
  have hword : ∀ x ∈ c :: t, isNameChar x = true := by
    refine List.forall_mem_cons.mpr ⟨?_, ht⟩
    rw [isNameChar, isAlphanum_of_isAlpha hc]
    rfl
  have hparen : ((c :: t ++ d).drop (c :: t).length).head? ≠ some '(' := by
    rw [List.drop_left]
    intro hhead
    exact absurd (hd '(' hhead) (by decide)
  have hnameAhead := nameAhead_append_of_isNameChar hword hd
  have hident : identLikeAhead (c :: t ++ d) = (.ident (c :: t), (c :: t).length) := by
    rw [identLikeAhead_of_no_paren (by rw [hnameAhead]; exact hparen), hnameAhead]
  have hclose : "-->".toList.isPrefixOf (c :: (t ++ d)) = false := by
    have hne := ne_of_isAlpha hc (by decide : Char.isAlpha '-' = false)
    show ('-' == c && _) = false
    rw [beq_false_of_ne hne.symm, Bool.false_and]
  have hstart : nameStartsAt (c :: (t ++ d)) = true := by
    rw [nameStartsAt_cons (ne_of_isAlpha hc (by decide)) (ne_of_isAlpha hc (by decide)),
      isNameStart_of_isAlpha hc]
  refine pieces_of_ahead ?_
  rw [Token.ahead, if_neg (by rw [isSpace_of_isAlpha hc]; exact Bool.false_ne_true),
    if_neg (by rw [numeralStartsAt_of_isAlpha hc]; exact Bool.false_ne_true),
    if_neg (by rw [hclose]; exact Bool.false_ne_true), if_pos hstart, ← List.cons_append, hident]
  rfl

end StyleAudit.Css
