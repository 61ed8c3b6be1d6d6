import StyleAudit.Proofs.Css.ScanReturns

/-!
# Names and numerals in a text that is cut off

When a text is cut off behind a name, nothing of the name is lost, but what follows it is.  A name
ends at the first character that cannot go on, so it is the same without what follows
(`nameAhead_of_append`), with one exception: a backslash in front of a line end does not go on with
a name, and a backslash that the text ends with does.  The same is true of the unit of a numeral
(`numericAhead_of_append`).  A numeral itself needs nothing (`scan_of_append`): it looks further
than it goes when a point or a letter is not followed by digits, and they are not followed by digits
either when the text is cut off behind them.

The statements are of one form throughout.  If what a scanner takes of `u ++ d` is no more than `u`,
it finds the same in `u`.  Whether a name or a numeral begins at all is told in both directions, for
a name that begins where nothing began before the cut would be a new token.
-/

namespace StyleAudit.Css

/-! ## Stretches -/

theorem takeWhile_of_append {p : Char → Bool} {u d : Text}
    (h : ((u ++ d).takeWhile p).length ≤ u.length) : u.takeWhile p = (u ++ d).takeWhile p := by
  rw [List.takeWhile_append] at h ⊢
  split
  next hall =>
    rw [if_pos hall, List.length_append] at h
    have hnone : d.takeWhile p = [] := List.length_eq_zero_iff.mp (by omega)
    rw [hnone, List.append_nil]
    exact (List.takeWhile_prefix p).eq_of_length hall
  next => rfl

theorem newlineAhead_append {u : Text} (hu : u ≠ []) (d : Text) :
    newlineAhead (u ++ d) = newlineAhead u := by
  obtain ⟨c, u, rfl⟩ := List.exists_cons_of_ne_nil hu
  rfl

/-- The length of one character of a kind at the front, a return and a line feed counting as
one. -/
def frontLength (p : Char → Bool) : Text → Nat
  | [] => 0
  | c :: t => if c = '\r' ∧ t.head? = some '\n' then 2 else if p c then 1 else 0

theorem newlineLength_eq_frontLength (t : Text) : newlineLength t = frontLength isNewline t := by
  unfold newlineLength
  split
  next => rfl
  next c t hpair =>
    refine (if_neg ?_).symm
    rintro ⟨rfl, ht⟩
    obtain ⟨u, rfl⟩ := List.head?_eq_some_iff.mp ht
    exact hpair u rfl rfl
  next => rfl

theorem spaceLength_eq_frontLength (t : Text) : spaceLength t = frontLength isSpace t := by
  unfold spaceLength
  split
  next => rfl
  next c t hpair =>
    refine (if_neg ?_).symm
    rintro ⟨rfl, ht⟩
    obtain ⟨u, rfl⟩ := List.head?_eq_some_iff.mp ht
    exact hpair u rfl rfl
  next => rfl

theorem frontLength_of_append {p : Char → Bool} {u d : Text}
    (h : frontLength p (u ++ d) ≤ u.length) : frontLength p u = frontLength p (u ++ d) := by
  rcases u with _ | ⟨c, _ | ⟨b, u⟩⟩
  case nil => exact (Nat.le_zero.mp h).symm
  case cons.cons => rfl
  case cons.nil =>
    rw [List.singleton_append, frontLength] at h
    rw [List.singleton_append, frontLength, frontLength]
    split at h
    next => exact absurd h (Nat.not_succ_le_self 1)
    next hpair => rw [if_neg hpair, if_neg fun hnone => Option.some_ne_none _ hnone.2.symm]

theorem newlineLength_of_append {u d : Text} (h : newlineLength (u ++ d) ≤ u.length) :
    newlineLength u = newlineLength (u ++ d) := by
  rw [newlineLength_eq_frontLength] at h
  rw [newlineLength_eq_frontLength, newlineLength_eq_frontLength, frontLength_of_append h]

theorem spaceLength_of_append {u d : Text} (h : spaceLength (u ++ d) ≤ u.length) :
    spaceLength u = spaceLength (u ++ d) := by
  rw [spaceLength_eq_frontLength] at h
  rw [spaceLength_eq_frontLength, spaceLength_eq_frontLength, frontLength_of_append h]

/-! ## Escapes and names -/

/-- The hexadecimal digits of an escape at the front of a text. -/
def escapeDigits (t : Text) : Text := (t.take 6).takeWhile isHexDigit

theorem escapeAhead_of_no_digits {c : Char} {t : Text} (h : escapeDigits (c :: t) = []) :
    escapeAhead (c :: t) = (if c = '\x00' then replacement else c, 1) := by
  exact if_pos (List.isEmpty_iff.mpr h)

theorem escapeAhead_of_digits {t : Text} (h : escapeDigits t ≠ []) :
    escapeAhead t =
      (charOfCode ((escapeDigits t).foldl (fun n c => 16 * n + hexDigitValue c) 0),
        (escapeDigits t).length + spaceLength (t.drop (escapeDigits t).length)) := by
  exact if_neg fun hempty => h (List.isEmpty_iff.mp hempty)

theorem length_escapeDigits_le_escapeAhead (t : Text) :
    (escapeDigits t).length ≤ (escapeAhead t).2 := by
  by_cases h : escapeDigits t = []
  · rw [h]
    exact Nat.zero_le _
  · rw [escapeAhead_of_digits h]
    exact Nat.le_add_right _ _

theorem eq_nil_of_escapeAhead {t : Text} (h : (escapeAhead t).2 = 0) : t = [] := by
  rcases t with _ | ⟨c, t⟩
  · rfl
  · have hdigits := length_escapeDigits_le_escapeAhead (c :: t)
    rw [h, Nat.le_zero, List.length_eq_zero_iff] at hdigits
    rw [escapeAhead_of_no_digits hdigits] at h
    cases h

/-- An escape that ends in the text is the same if the text is cut off behind it. -/
theorem escapeAhead_of_append {u d : Text} (h : (escapeAhead (u ++ d)).2 ≤ u.length) :
    escapeAhead u = escapeAhead (u ++ d) := by
  have hdigits : escapeDigits u = escapeDigits (u ++ d) := by
    have hle := (length_escapeDigits_le_escapeAhead (u ++ d)).trans h
    have hsix : (escapeDigits (u ++ d)).length ≤ 6 :=
      (length_takeWhile_le _ _).trans (List.length_take_le 6 _)
    have happend : escapeDigits (u ++ d) =
        (u.take 6 ++ d.take (6 - u.length)).takeWhile isHexDigit := by
      rw [escapeDigits, List.take_append]
    rw [happend] at hle hsix ⊢
    refine takeWhile_of_append ?_
    rw [List.length_take]
    exact Nat.le_min.mpr ⟨hsix, hle⟩
  by_cases hnone : escapeDigits (u ++ d) = []
  · rcases u with _ | ⟨c, u⟩
    · rw [List.nil_append] at h ⊢
      rw [eq_nil_of_escapeAhead (Nat.le_zero.mp h)]
    · rw [List.cons_append] at hnone ⊢
      rw [escapeAhead_of_no_digits hnone, escapeAhead_of_no_digits (hdigits.trans hnone)]
  · rw [escapeAhead_of_digits hnone] at h ⊢
    rw [escapeAhead_of_digits (hdigits ▸ hnone), hdigits]
    have hle : (escapeDigits (u ++ d)).length ≤ u.length := (Nat.le_add_right _ _).trans h
    rw [List.drop_append_of_le_length hle] at h ⊢
    rw [spaceLength_of_append]
    rw [List.length_drop]
    exact Nat.le_sub_of_add_le' h

theorem nameAhead_backslash_of_newline {t : Text} (h : newlineAhead t = true) :
    nameAhead ('\\' :: t) = ([], 0) := by
  rw [nameAhead, if_pos rfl, if_pos h]

theorem nameAhead_backslash {t : Text} (h : newlineAhead t = false) :
    nameAhead ('\\' :: t) =
      ((escapeAhead t).1 :: (nameAhead (t.drop (escapeAhead t).2)).1,
        1 + (escapeAhead t).2 + (nameAhead (t.drop (escapeAhead t).2)).2) := by
  rw [nameAhead, if_pos rfl, if_neg (Bool.eq_false_iff.mp h)]

/-- A character that a name goes on with, and what it stands for there. -/
theorem nameAhead_of_ne_backslash {c : Char} (hc : c ≠ '\\') (t : Text) :
    nameAhead (c :: t) =
      if c = '\x00' ∨ isNameChar c = true then
        ((if c = '\x00' then replacement else c) :: (nameAhead t).1, 1 + (nameAhead t).2)
      else ([], 0) := by
  rw [nameAhead, if_neg hc]
  by_cases hz : c = '\x00'
  · rw [if_pos hz, if_pos (.inl hz), if_pos hz]
  · by_cases hn : isNameChar c = true
    · rw [if_neg hz, if_pos hn, if_pos (.inr hn), if_neg hz]
    · rw [if_neg hz, if_neg hn, if_neg (not_or.mpr ⟨hz, hn⟩)]

theorem nameAhead_of_length_eq_zero {t : Text} (h : (nameAhead t).2 = 0) :
    nameAhead t = ([], 0) := by
  rcases t with _ | ⟨c, t⟩
  · rw [nameAhead]
  · by_cases hc : c = '\\'
    · subst hc
      cases hnew : newlineAhead t with
      | true => exact nameAhead_backslash_of_newline hnew
      | false =>
        rw [nameAhead_backslash hnew] at h
        omega
    · rw [nameAhead_of_ne_backslash hc] at h ⊢
      split at h
      next => omega
      next hnot => rw [if_neg hnot]

/-- A name that ends in the text is the same if the text is cut off behind it, unless a backslash
is left that a line end no longer follows. -/
theorem nameAhead_of_append {d : Text} : ∀ {u : Text}, (nameAhead (u ++ d)).2 ≤ u.length →
    (u.drop (nameAhead (u ++ d)).2 = ['\\'] → newlineAhead d = false) →
      nameAhead u = nameAhead (u ++ d)
  | [], h, _ => by
    rw [List.nil_append] at h ⊢
    rw [nameAhead_of_length_eq_zero (Nat.le_zero.mp h), nameAhead]
  | c :: u, h, hback => by
    rw [List.cons_append] at h hback ⊢
    by_cases hc : c = '\\'
    · subst hc
      cases hnew : newlineAhead (u ++ d) with
      | true =>
        rw [nameAhead_backslash_of_newline hnew] at hback ⊢
        have hu : u ≠ [] := by
          rintro rfl
          cases (hback rfl).symm.trans hnew
        rw [newlineAhead_append hu] at hnew
        exact nameAhead_backslash_of_newline hnew
      | false =>
        rw [nameAhead_backslash hnew, List.length_cons] at h
        rw [nameAhead_backslash hnew, ← List.drop_drop, ← List.drop_drop] at hback
        have hnew' : newlineAhead u = false := by
          rcases u with _ | ⟨e, u⟩
          · rfl
          · exact hnew
        have hescape : escapeAhead u = escapeAhead (u ++ d) := escapeAhead_of_append (by omega)
        have hdrop : (u ++ d).drop (escapeAhead (u ++ d)).2 =
            u.drop (escapeAhead (u ++ d)).2 ++ d := List.drop_append_of_le_length (by omega)
        rw [hdrop] at h hback
        have hrest : (u.drop (escapeAhead (u ++ d)).2).length =
            u.length - (escapeAhead (u ++ d)).2 := List.length_drop
        rw [nameAhead_backslash hnew, nameAhead_backslash hnew', hescape, hdrop,
          nameAhead_of_append (u := u.drop (escapeAhead (u ++ d)).2) (by omega) hback]
    · rw [nameAhead_of_ne_backslash hc] at h hback
      rw [nameAhead_of_ne_backslash hc, nameAhead_of_ne_backslash hc]
      split at h
      next hname =>
        rw [List.length_cons] at h
        rw [if_pos hname, ← List.drop_drop] at hback
        rw [if_pos hname, if_pos hname, nameAhead_of_append (u := u) (by omega) hback]
      next hname => rw [if_neg hname, if_neg hname]
termination_by u => u.length
decreasing_by all_goals simp only [List.length_cons, List.length_drop]; omega

/-- A name that begins in front of a text begins when something is put behind the text, unless it
is a backslash and that is a line end. -/
theorem nameStartsAt_append_of {u d : Text} (hback : u = ['\\'] → newlineAhead d = false)
    (h : nameStartsAt u = true) : nameStartsAt (u ++ d) = true := by
  match u with
  | [] => cases h
  | [c] =>
    by_cases hc : c = '\\'
    · subst hc
      show (!newlineAhead d) = true
      rw [hback rfl]
      rfl
    · by_cases hy : c = '-'
      · subst hy
        exact absurd h (by decide)
      · rw [nameStartsAt_cons hy hc] at h
        rw [List.singleton_append, nameStartsAt_cons hy hc]
        exact h
  | c :: e :: u =>
    by_cases hc : c = '\\'
    · subst hc
      exact h
    · by_cases hy : c = '-'
      · subst hy
        exact h
      · rw [nameStartsAt_cons hy hc] at h
        rw [List.cons_append, nameStartsAt_cons hy hc]
        exact h

/-- A name that begins in front of a text and ends in it begins in front of it. -/
theorem nameStartsAt_of_append {u d : Text} (hd : d.head? ≠ some '\\')
    (hle : (nameAhead (u ++ d)).2 ≤ u.length) (h : nameStartsAt (u ++ d) = true) :
    nameStartsAt u = true := by
  match u with
  | [] =>
    have hpos := nameAhead_pos h
    exact absurd hle (Nat.not_le_of_lt hpos)
  | [c] =>
    by_cases hc : c = '\\'
    · subst hc
      rfl
    · by_cases hy : c = '-'
      · subst hy
        rcases d with _ | ⟨x, d⟩
        · exact absurd h (by decide)
        · -- the name goes on into what is cut off
          have hx : x ≠ '\\' := fun hx => hd (by rw [hx]; rfl)
          have hname : x = '\x00' ∨ isNameChar x = true := by
            have hstart : (isNameStart x || x == '-' || x == '\\') = true := h
            simp only [isNameStart, isNameChar, Char.isAlphanum, Bool.or_eq_true, beq_iff_eq]
              at hstart ⊢
            tauto
          rw [List.singleton_append, nameAhead_of_ne_backslash hc, if_pos (.inr (by decide)),
            nameAhead_of_ne_backslash hx, if_pos hname, List.length_singleton] at hle
          omega
      · rw [List.singleton_append, nameStartsAt_cons hy hc] at h
        rwa [nameStartsAt_cons hy hc]
  | c :: e :: u =>
    by_cases hc : c = '\\'
    · subst hc
      exact h
    · by_cases hy : c = '-'
      · subst hy
        exact h
      · rw [List.cons_append, nameStartsAt_cons hy hc] at h
        rwa [nameStartsAt_cons hy hc]

/-! ## Numerals -/

theorem sign_ahead?_of_append {t d : Text}
    (h : (Sign.ahead? (t ++ d)).toList.length ≤ t.length) :
    Sign.ahead? t = Sign.ahead? (t ++ d) := by
  rcases t with _ | ⟨c, t⟩
  · cases hsign : Sign.ahead? ([] ++ d) with
    | none => rfl
    | some s =>
      rw [hsign] at h
      exact absurd h (Nat.not_succ_le_zero 0)
  · rfl

theorem fractionAhead_of_ne_point {c : Char} (hc : c ≠ '.') (t : Text) :
    Numeral.fractionAhead (c :: t) = [] := by
  unfold Numeral.fractionAhead
  split
  next heq =>
    cases heq
    exact absurd rfl hc
  next => rfl

theorem fractionAhead_of_append {t d : Text} (h : (if (Numeral.fractionAhead (t ++ d)).isEmpty
      then 0 else (Numeral.fractionAhead (t ++ d)).length + 1) ≤ t.length) :
    Numeral.fractionAhead t = Numeral.fractionAhead (t ++ d) := by
  have hle : (Numeral.fractionAhead (t ++ d)).length ≤ t.length := by
    split at h
    next hempty => rw [List.isEmpty_iff.mp hempty]; exact Nat.zero_le _
    next => omega
  rcases t with _ | ⟨c, t⟩
  · exact (List.length_eq_zero_iff.mp (Nat.le_zero.mp hle)).symm
  · by_cases hc : c = '.'
    · subst hc
      refine takeWhile_of_append ?_
      show (Numeral.fractionAhead ('.' :: t ++ d)).length ≤ t.length
      split at h
      next hempty => rw [List.isEmpty_iff.mp hempty]; exact Nat.zero_le _
      next => rw [List.length_cons] at h; omega
    · rw [List.cons_append, fractionAhead_of_ne_point hc, fractionAhead_of_ne_point hc]

/-- The digits of an exponent behind its letter. -/
def exponentDigits (t : Text) : Text :=
  (t.drop (Sign.ahead? t).toList.length).takeWhile Char.isDigit

theorem exponentAhead_of_digits {c : Char} (hc : c = 'e' ∨ c = 'E') {t : Text}
    (h : exponentDigits t ≠ []) : Numeral.exponentAhead (c :: t) =
      (some (Sign.ahead? t, exponentDigits t),
        1 + (Sign.ahead? t).toList.length + (exponentDigits t).length) := by
  rw [Numeral.exponentAhead, if_pos hc]
  exact if_neg fun hempty => h (List.isEmpty_iff.mp hempty)

theorem exponentAhead_of_no_digits {c : Char} {t : Text}
    (h : c = 'e' ∨ c = 'E' → exponentDigits t = []) :
    Numeral.exponentAhead (c :: t) = (none, 0) := by
  rw [Numeral.exponentAhead]
  split
  next hc => exact if_pos (List.isEmpty_iff.mpr (h hc))
  next => rfl

theorem exponentAhead_of_append {t d : Text}
    (h : (Numeral.exponentAhead (t ++ d)).2 ≤ t.length) :
    Numeral.exponentAhead t = Numeral.exponentAhead (t ++ d) := by
  rcases t with _ | ⟨c, t⟩
  · rcases d with _ | ⟨e, d⟩
    · rfl
    · by_cases hdigits : (e = 'e' ∨ e = 'E') ∧ exponentDigits d ≠ []
      · rw [List.nil_append, exponentAhead_of_digits hdigits.1 hdigits.2] at h
        exact absurd h (by rw [List.length_nil]; omega)
      · refine (exponentAhead_of_no_digits fun he => ?_).symm
        exact not_not.mp fun hne => hdigits ⟨he, hne⟩
  · rw [List.cons_append] at h ⊢
    by_cases hdigits : (c = 'e' ∨ c = 'E') ∧ exponentDigits (t ++ d) ≠ []
    · rw [exponentAhead_of_digits hdigits.1 hdigits.2, List.length_cons] at h
      have hsign := sign_ahead?_of_append (t := t) (d := d) (by omega)
      have heq : exponentDigits t = exponentDigits (t ++ d) := by
        have hdrop : exponentDigits (t ++ d) =
            (t.drop (Sign.ahead? (t ++ d)).toList.length ++ d).takeWhile Char.isDigit := by
          rw [exponentDigits, List.drop_append_of_le_length (by omega)]
        rw [hdrop] at h ⊢
        rw [exponentDigits, hsign]
        exact takeWhile_of_append (by rw [List.length_drop]; omega)
      rw [exponentAhead_of_digits hdigits.1 hdigits.2,
        exponentAhead_of_digits hdigits.1 (heq ▸ hdigits.2), heq, hsign]
    · have hnone : c = 'e' ∨ c = 'E' → exponentDigits (t ++ d) = [] := fun hc =>
        not_not.mp fun hne => hdigits ⟨hc, hne⟩
      rw [exponentAhead_of_no_digits hnone]
      refine exponentAhead_of_no_digits fun hc => ?_
      rcases t with _ | ⟨b, t⟩
      · rfl
      · have hempty := hnone hc
        have hdrop : exponentDigits (b :: t ++ d) =
            ((b :: t).drop (Sign.ahead? (b :: t)).toList.length ++ d).takeWhile Char.isDigit := by
          rw [exponentDigits, ← List.drop_append_of_le_length (length_sign_le (b :: t))]
          rfl
        rw [hdrop] at hempty
        refine (takeWhile_of_append ?_).trans hempty
        rw [hempty]
        exact Nat.zero_le _

/-- A numeral that ends in the text is the same if the text is cut off behind it. -/
theorem scan_of_append {t d : Text} (h : (Numeral.scan (t ++ d)).2 ≤ t.length) :
    Numeral.scan t = Numeral.scan (t ++ d) := by
  simp only [Numeral.scan] at h ⊢
  have hsign := sign_ahead?_of_append (t := t) (d := d) (by omega)
  rw [List.drop_append_of_le_length (by omega)] at h ⊢
  rw [hsign]
  generalize (Sign.ahead? (t ++ d)).toList.length = n at h ⊢
  have hu : (t.drop n).length = t.length - n := List.length_drop
  generalize t.drop n = u at h hu ⊢
  have hwhole := takeWhile_of_append (p := Char.isDigit) (u := u) (d := d) (by omega)
  rw [hwhole]
  generalize ((u ++ d).takeWhile Char.isDigit) = whole at h hwhole ⊢
  have hle : whole.length ≤ u.length := hwhole ▸ length_takeWhile_le _ _
  rw [List.drop_append_of_le_length hle] at h ⊢
  have hv : (u.drop whole.length).length = u.length - whole.length := List.length_drop
  generalize u.drop whole.length = v at h hv ⊢
  have hfraction := fractionAhead_of_append (t := v) (d := d) (by omega)
  rw [hfraction]
  generalize hpointed : (if (Numeral.fractionAhead (v ++ d)).isEmpty then 0
    else (Numeral.fractionAhead (v ++ d)).length + 1) = pointed at h ⊢
  rw [List.drop_append_of_le_length (by omega)] at h ⊢
  rw [exponentAhead_of_append (d := d) (by rw [List.length_drop]; omega)]

/-- Whether a numeral begins can be seen from what is read of it. -/
theorem numeralStartsAt_iff (t : Text) : numeralStartsAt t = true ↔
    (Numeral.scan t).1.whole ≠ [] ∨ (Numeral.scan t).1.fraction ≠ [] := by
  simp only [numeralStartsAt, Numeral.scan]
  generalize t.drop (Sign.ahead? t).toList.length = u
  rcases u with _ | ⟨c, u⟩
  · exact iff_of_false (by decide) (by decide)
  · by_cases hc : c.isDigit = true
    · refine iff_of_true ?_ (.inl ?_)
      · show (c.isDigit || _) = true
        rw [hc, Bool.true_or]
      · rw [List.takeWhile_cons_of_pos hc]
        exact List.cons_ne_nil _ _
    · rw [List.takeWhile_cons_of_neg hc, List.length_nil, List.drop_zero]
      show (c.isDigit || !(Numeral.fractionAhead (c :: u)).isEmpty) = true ↔ _
      rw [Bool.eq_false_iff.mpr hc, Bool.false_or, Bool.not_eq_true', List.isEmpty_eq_false_iff,
        or_iff_right (not_not.mpr rfl)]

theorem numeralStartsAt_of_append {t d : Text} (hle : (Numeral.scan (t ++ d)).2 ≤ t.length)
    (h : numeralStartsAt (t ++ d) = true) : numeralStartsAt t = true := by
  rw [numeralStartsAt_iff] at h ⊢
  rwa [scan_of_append hle]

theorem numeralStartsAt_append_of {t d : Text} (h : numeralStartsAt t = true) :
    numeralStartsAt (t ++ d) = true := by
  have hdigit : ∀ u : Text, digitAhead u = true → digitAhead (u ++ d) = true := by
    intro u hu
    rcases u with _ | ⟨c, u⟩
    · cases hu
    · exact hu
  have hfraction : ∀ u : Text, Numeral.fractionAhead u ≠ [] →
      Numeral.fractionAhead (u ++ d) ≠ [] := by
    intro u hu
    rcases u with _ | ⟨c, u⟩
    · exact absurd rfl hu
    · by_cases hc : c = '.'
      · subst hc
        rcases u with _ | ⟨e, u⟩
        · exact absurd rfl hu
        · have he : e.isDigit = true := by
            by_contra hnot
            exact hu (List.takeWhile_cons_of_neg hnot)
          show (e :: u ++ d).takeWhile Char.isDigit ≠ []
          rw [List.cons_append, List.takeWhile_cons_of_pos he]
          exact List.cons_ne_nil _ _
      · exact absurd (fractionAhead_of_ne_point hc u) hu
  rcases t with _ | ⟨c, t⟩
  · exact absurd h (by decide)
  · simp only [numeralStartsAt, Bool.or_eq_true, Bool.not_eq_true', List.isEmpty_eq_false_iff]
      at h ⊢
    have hdrop : (c :: t ++ d).drop (Sign.ahead? (c :: t ++ d)).toList.length =
        (c :: t).drop (Sign.ahead? (c :: t)).toList.length ++ d := by
      rw [← List.drop_append_of_le_length (length_sign_le (c :: t))]
      rfl
    rw [hdrop]
    exact h.imp (hdigit _) (hfraction _)

theorem scan_le_numericAhead (t : Text) : (Numeral.scan t).2 ≤ (numericAhead t).2 := by
  simp only [numericAhead]
  split
  · exact Nat.le_succ _
  · split
    · exact Nat.le_add_right _ _
    · exact Nat.le_refl _

/-- A numeral with its unit that ends in the text is the same if the text is cut off behind it. -/
theorem numericAhead_of_append {t d : Text} (hd : d.head? ≠ some '\\')
    (h : (numericAhead (t ++ d)).2 ≤ t.length)
    (hback : t.drop (numericAhead (t ++ d)).2 = ['\\'] → newlineAhead d = false) :
    numericAhead t = numericAhead (t ++ d) := by
  have hle := scan_le_numericAhead (t ++ d)
  have hscan := scan_of_append (hle.trans h)
  have hdrop : (t ++ d).drop (Numeral.scan (t ++ d)).2 =
      t.drop (Numeral.scan (t ++ d)).2 ++ d := List.drop_append_of_le_length (hle.trans h)
  simp only [numericAhead] at h hback ⊢
  rw [hscan]
  rw [hdrop] at h hback ⊢
  have hlen : (t.drop (Numeral.scan (t ++ d)).2).length = t.length - (Numeral.scan (t ++ d)).2 :=
    List.length_drop
  generalize hr : t.drop (Numeral.scan (t ++ d)).2 = r at h hback hlen ⊢
  have hhead : r.head? = some '%' → (r ++ d).head? = some '%' := fun hr => by
    obtain ⟨r, rfl⟩ := List.head?_eq_some_iff.mp hr
    rfl
  by_cases hpercent : (r ++ d).head? = some '%'
  · rw [if_pos hpercent] at h
    have hne : r ≠ [] := by
      rintro rfl
      simp only [List.length_nil] at hlen h
      omega
    rw [if_pos hpercent, if_pos ((List.head?_append_of_ne_nil r hne).symm.trans hpercent)]
  · rw [if_neg hpercent] at h hback
    rw [if_neg hpercent, if_neg (mt hhead hpercent)]
    by_cases hname : nameStartsAt (r ++ d) = true
    · rw [if_pos hname] at h hback
      simp only at h hback
      have hin : (nameAhead (r ++ d)).2 ≤ r.length := by omega
      have hunit : nameAhead r = nameAhead (r ++ d) := by
        refine nameAhead_of_append hin fun hrest => hback ?_
        rw [← List.drop_drop, hr, hrest]
      rw [if_pos hname, if_pos (nameStartsAt_of_append hd hin hname), hunit]
    · rw [if_neg hname] at hback
      rw [if_neg hname, if_neg fun hstart => hname (nameStartsAt_append_of (fun h => ?_) hstart)]
      exact hback (hr.trans h)

end StyleAudit.Css
