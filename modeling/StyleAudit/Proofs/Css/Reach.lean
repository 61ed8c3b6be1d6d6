import StyleAudit.Css.Lexer

/-!
# No scanner takes more than there is

A scanner of the lexer looks at the front of a text and says how many characters it takes.
Nothing needs to be known about that number for the lexemes to make up the text again, but
as soon as a text is cut out of another one it has to be known that the number is at most
the length of the text.  There is one statement for each scanner, and the one about tokens
(`Token.ahead_le`) is put together from them.
-/

namespace StyleAudit.Css

/-! ## Line ends, escapes and names -/

theorem length_takeWhile_le (p : Char → Bool) (t : Text) : (t.takeWhile p).length ≤ t.length :=
  (List.takeWhile_sublist p).length_le

theorem newlineLength_le (t : Text) : newlineLength t ≤ t.length := by
  unfold newlineLength
  split
  · simp
  · split <;> simp
  · simp

theorem spaceLength_le (t : Text) : spaceLength t ≤ t.length := by
  unfold spaceLength
  split
  · simp
  · split <;> simp
  · simp

theorem escapeAhead_le (t : Text) : (escapeAhead t).2 ≤ t.length := by
  simp only [escapeAhead]
  split
  · cases t <;> simp
  · have h₁ := length_takeWhile_le isHexDigit (t.take 6)
    have h₂ := spaceLength_le (t.drop ((t.take 6).takeWhile isHexDigit).length)
    rw [List.length_take] at h₁
    rw [List.length_drop] at h₂
    omega

theorem nameAhead_le (t : Text) : (nameAhead t).2 ≤ t.length := by
  fun_induction nameAhead t with
  | case1 => exact Nat.le_refl _
  | case2 => exact Nat.zero_le _
  | case3 t hnew e r ih =>
    have he := escapeAhead_le t
    rw [List.length_drop] at ih
    simp only [r, e, List.length_cons] at ih ⊢
    omega
  | case4 t r ih =>
    simp only [r, List.length_cons] at ih ⊢
    omega
  | case5 c t hb hz hc r ih =>
    simp only [r, List.length_cons] at ih ⊢
    omega
  | case6 => exact Nat.zero_le _

/-! ## Numerals -/

theorem length_sign_le (t : Text) : (Sign.ahead? t).toList.length ≤ t.length := by
  cases t with
  | nil => exact Nat.le_refl _
  | cons c t =>
    cases Sign.ahead? (c :: t) with
    | none => exact Nat.zero_le _
    | some s => rw [List.length_cons]; exact Nat.succ_le_succ (Nat.zero_le _)

theorem length_fractionAhead_lt (t : Text) (h : Numeral.fractionAhead t ≠ []) :
    (Numeral.fractionAhead t).length < t.length := by
  unfold Numeral.fractionAhead at h ⊢
  split at h
  next u =>
    have := length_takeWhile_le Char.isDigit u
    rw [List.length_cons]
    omega
  next => exact absurd rfl h

/-- The digits behind a point, and the point, which is there if they are. -/
theorem length_pointed_le (t : Text) :
    (if (Numeral.fractionAhead t).isEmpty then 0 else (Numeral.fractionAhead t).length + 1) ≤
      t.length := by
  split
  · exact Nat.zero_le _
  next hne => exact length_fractionAhead_lt t fun h => hne (by rw [h]; rfl)

theorem exponentAhead_le (t : Text) : (Numeral.exponentAhead t).2 ≤ t.length := by
  unfold Numeral.exponentAhead
  cases t with
  | nil => exact Nat.le_refl _
  | cons c t =>
    simp only
    split
    · split
      · exact Nat.zero_le _
      · have h₁ := length_sign_le t
        have h₂ := length_takeWhile_le Char.isDigit (t.drop (Sign.ahead? t).toList.length)
        rw [List.length_drop] at h₂
        rw [List.length_cons]
        omega
    · exact Nat.zero_le _

theorem Numeral.scan_le (t : Text) : (Numeral.scan t).2 ≤ t.length := by
  simp only [Numeral.scan]
  have h₁ := length_sign_le t
  generalize (Sign.ahead? t).toList.length = s at h₁ ⊢
  have h₂ := length_takeWhile_le Char.isDigit (t.drop s)
  rw [List.length_drop] at h₂
  generalize ((t.drop s).takeWhile Char.isDigit).length = w at h₂ ⊢
  have h₃ := length_pointed_le ((t.drop s).drop w)
  generalize (if (Numeral.fractionAhead ((t.drop s).drop w)).isEmpty then 0
      else (Numeral.fractionAhead ((t.drop s).drop w)).length + 1) = p at h₃ ⊢
  have h₄ := exponentAhead_le (((t.drop s).drop w).drop p)
  rw [List.length_drop, List.length_drop] at h₃
  rw [List.length_drop, List.length_drop, List.length_drop] at h₄
  omega

/-! ## Comments, strings and addresses -/

theorem commentLength_le (t : Text) : commentLength t ≤ t.length := by
  fun_induction commentLength t with
  | case1 => simp
  | case2 c t _ ih =>
    rw [List.length_cons]
    omega
  | case3 => exact Nat.le_refl _

theorem stringAhead_le (quote : Char) (t : Text) : (stringAhead quote t).2 ≤ t.length := by
  fun_induction stringAhead quote t with
  | case1 => exact Nat.le_refl _
  | case2 => simp
  | case3 => exact Nat.zero_le _
  | case4 => simp
  | case5 d u hd n r hq hn ih =>
    have h := newlineLength_le (d :: u)
    rw [List.length_drop] at ih
    simp only [r, n, List.length_cons] at h ih ⊢
    omega
  | case6 d u hd e r hq hn ih =>
    have h := escapeAhead_le (d :: u)
    rw [List.length_drop] at ih
    simp only [r, e, List.length_cons] at h ih ⊢
    omega
  | case7 c t hq hn hb r ih =>
    simp only [r, List.length_cons] at ih ⊢
    omega

theorem urlEndAhead_le (t : Text) : (urlEndAhead t).2 ≤ t.length := by
  have h := length_takeWhile_le isSpace t
  simp only [urlEndAhead]
  split
  · exact h
  next c r hdrop =>
    have hlen := congrArg List.length hdrop
    rw [List.length_drop, List.length_cons] at hlen
    omega

theorem urlAhead_le (t : Text) : (urlAhead t).2 ≤ t.length := by
  fun_induction urlAhead t with
  | case1 => exact Nat.le_refl _
  | case2 c t hs e => exact urlEndAhead_le (c :: t)
  | case3 => simp
  | case4 => simp
  | case5 => simp
  | case6 t hnew e r hs hp hb ih =>
    have h := escapeAhead_le t
    rw [List.length_drop] at ih
    simp only [r, e, List.length_cons] at h ih ⊢
    omega
  | case7 c t hs hp hb hc r ih =>
    simp only [r, List.length_cons] at ih ⊢
    omega

theorem brokenUrlLength_le (t : Text) : brokenUrlLength t ≤ t.length := by
  fun_induction brokenUrlLength t with
  | case1 => exact Nat.le_refl _
  | case2 => exact Nat.zero_le _
  | case3 t ih | case4 t ih =>
    rw [List.length_cons, List.length_cons]
    omega
  | case5 c t _ _ _ ih =>
    rw [List.length_cons]
    omega

theorem urlTokenAhead_le (name t : Text) : (urlTokenAhead name t).2 ≤ t.length := by
  have h₁ := length_takeWhile_le isSpace t
  simp only [urlTokenAhead]
  generalize (t.takeWhile isSpace).length = b at h₁ ⊢
  have h₂ := urlAhead_le (t.drop b)
  split
  · exact Nat.zero_le _
  · rw [List.length_drop] at h₂
    split
    · simp only
      omega
    · have h₃ := brokenUrlLength_le ((t.drop b).drop (urlAhead (t.drop b)).2)
      rw [List.length_drop, List.length_drop] at h₃
      simp only [List.length_take, List.length_drop]
      omega

/-! ## Tokens -/

theorem identLikeAhead_le (t : Text) : (identLikeAhead t).2 ≤ t.length := by
  have h₁ := nameAhead_le t
  simp only [identLikeAhead]
  split
  next rest hdrop =>
    have hlen := congrArg List.length hdrop
    rw [List.length_drop, List.length_cons] at hlen
    have h₂ := urlTokenAhead_le (nameAhead t).1 rest
    split
    · simp only
      omega
    · simp only
      omega
  next => exact h₁

theorem numericAhead_le (t : Text) : (numericAhead t).2 ≤ t.length := by
  have h₁ := Numeral.scan_le t
  simp only [numericAhead]
  split
  next hhead =>
    have hlen : 0 < (t.drop (Numeral.scan t).2).length := by
      cases hdrop : t.drop (Numeral.scan t).2 with
      | nil => rw [hdrop] at hhead; cases hhead
      | cons c r => exact Nat.succ_pos _
    rw [List.length_drop] at hlen
    simp only
    omega
  · split
    · have h₂ := nameAhead_le (t.drop (Numeral.scan t).2)
      rw [List.length_drop] at h₂
      simp only
      omega
    · exact h₁

theorem quotedAhead_le (quote : Char) (t : Text) : (quotedAhead quote t).2 ≤ t.length + 1 := by
  have h := stringAhead_le quote t
  simp only [quotedAhead]
  omega

theorem matchAhead_le (c : Char) (token : Token) (t : Text) :
    (matchAhead c token t).2 ≤ t.length + 1 := by
  unfold matchAhead
  split
  next h =>
    cases t with
    | nil => cases h
    | cons d t => simp
  · simp

theorem markAhead_le (c : Char) (t : Text) : (markAhead c t).2 ≤ t.length + 1 := by
  have hname := nameAhead_le t
  unfold markAhead
  split
  case h_1 | h_2 => exact quotedAhead_le _ _
  case h_7 | h_8 | h_9 | h_10 | h_11 => exact matchAhead_le _ _ _
  case h_3 | h_4 =>
    repeat' split
    all_goals simp only
    all_goals omega
  case h_5 =>
    split
    next h =>
      have hc := commentLength_le (t.drop 1)
      cases t with
      | nil => cases h
      | cons d t =>
        rw [List.drop_succ_cons, List.drop_zero] at hc ⊢
        simp only [List.length_cons]
        omega
    · simp
  case h_6 =>
    split
    next h =>
      have := (List.isPrefixOf_iff_prefix.mp h).length_le
      simp only [String.length_toList] at this
      simp only
      exact Nat.succ_le_succ this
    · simp
  all_goals exact Nat.succ_le_succ (Nat.zero_le _)

/-- **No token takes more characters than there are.** -/
theorem Token.ahead_le (c : Char) (t : Text) : (Token.ahead c t).2 ≤ t.length + 1 := by
  unfold Token.ahead
  split
  · have := length_takeWhile_le isSpace t
    simp only
    omega
  · split
    · exact numericAhead_le (c :: t)
    · split
      next h =>
        have := (List.isPrefixOf_iff_prefix.mp h).length_le
        exact this
      · split
        · exact identLikeAhead_le (c :: t)
        · exact markAhead_le c t

end StyleAudit.Css
