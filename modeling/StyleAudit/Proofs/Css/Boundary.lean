import Mathlib.Data.List.TakeWhile
import StyleAudit.Proofs.Css.Reach
import StyleAudit.Proofs.Text.Trim

/-!
# What the scanners see of a text behind a boundary

A character is a boundary when it belongs to no name, no numeral and no mark of several
characters: white space, braces, a colon, a semicolon, and the slash that a comment begins
with.  A text *stands apart* (`StandsApart`) when it is empty or begins with a boundary.

Put behind another text, a text that stands apart changes nothing about the names, numerals
and marks in front of it.  For the scanner `f` of such things this is the statement
`f (u ++ d) = f u`, where `u` holds no backslash, because an escape may take a blank that
follows it.

White space, strings, comments, and addresses with the name in front of them run on until
they find their own end (`Token.runsOn`), so for them nothing of the kind holds.  Their
scanners have a statement of the same form with another hypothesis: that the end is found
in `u`.  It holds for every `d`.

The two halves meet in `Token.ahead_append`: a token is the same in front of a text that
stands apart, or it runs on in both texts.
-/

namespace StyleAudit.Css

/-! ## Boundaries -/

/-- The characters that end every name, numeral and mark before them. -/
def boundaries : Text := [' ', '\t', '\n', '\r', '\x0c', ';', ':', '\x7b', '\x7d', '/']

/-- A property of the characters of a text is decided by going through the text, not through
all characters there are. -/
instance decidableForallMem (t : Text) (p : Char → Prop) [DecidablePred p] :
    Decidable (∀ c ∈ t, p c) :=
  List.decidableBAll p t

/-- Whether the text is empty or begins with a boundary. -/
def StandsApart (d : Text) : Prop := ∀ c ∈ d.head?, c ∈ boundaries

theorem standsApart_nil : StandsApart [] := by simp [StandsApart]

theorem standsApart_cons {c : Char} {d : Text} : StandsApart (c :: d) ↔ c ∈ boundaries := by
  simp [StandsApart]

theorem mem_boundaries_of_isSpace {c : Char} (h : isSpace c = true) : c ∈ boundaries := by
  simp only [isSpace, isNewline, Bool.or_eq_true, beq_iff_eq] at h
  rcases h with (rfl | rfl) | (rfl | rfl) | rfl <;> decide

variable {d : Text} (hd : StandsApart d)

/-- A test that no boundary passes is not passed by the front of a text that stands apart. -/
theorem StandsApart.eq_nil_or {p : Char → Bool} (hp : ∀ c ∈ boundaries, p c = false)
    {d : Text} (hd : StandsApart d) : d = [] ∨ ∃ c d', d = c :: d' ∧ p c = false := by
  cases d with
  | nil => exact .inl rfl
  | cons c d => exact .inr ⟨c, d, rfl, hp c (standsApart_cons.mp hd)⟩

include hd

theorem head?_append_iff {x : Char} (hx : x ∉ boundaries) (u : Text) :
    (u ++ d).head? = some x ↔ u.head? = some x := by
  cases u with
  | cons c u => exact Iff.rfl
  | nil =>
    refine ⟨fun h => absurd (hd x h) hx, fun h => ?_⟩
    cases h

theorem takeWhile_append {p : Char → Bool} (hp : ∀ c ∈ boundaries, p c = false) (u : Text) :
    (u ++ d).takeWhile p = u.takeWhile p :=
  Text.takeWhile_append_of_head? (fun c hc => hp c (hd c hc)) u

/-- A word without boundaries begins the longer text if it begins the shorter one. -/
theorem isPrefixOf_append {w : Text} (hw : ∀ c ∈ w, c ∉ boundaries) (u : Text) :
    w.isPrefixOf (u ++ d) = w.isPrefixOf u := by
  induction w generalizing u with
  | nil => rw [List.isPrefixOf_nil_left, List.isPrefixOf_nil_left]
  | cons x w ih =>
    cases u with
    | cons c u =>
      rw [List.cons_append, List.isPrefixOf_cons_cons, List.isPrefixOf_cons_cons,
        ih (fun c hc => hw c (List.mem_cons_of_mem _ hc))]
    | nil =>
      cases d with
      | nil => rfl
      | cons b d =>
        have hne : x ≠ b := by
          rintro rfl
          exact hw x List.mem_cons_self (standsApart_cons.mp hd)
        rw [List.nil_append, List.isPrefixOf_cons_cons, beq_false_of_ne hne]
        rfl

/-! ## Names -/

theorem nameAhead_append {u : Text} (hb : '\\' ∉ u) : nameAhead (u ++ d) = nameAhead u := by
  induction u with
  | nil =>
    cases d with
    | nil => rfl
    | cons b d =>
      have hb := standsApart_cons.mp hd
      have hname : isNameChar b = false :=
        (by decide : ∀ b ∈ boundaries, isNameChar b = false) b hb
      have hmark : b ≠ '\\' ∧ b ≠ '\x00' :=
        (by decide : ∀ b ∈ boundaries, b ≠ '\\' ∧ b ≠ '\x00') b hb
      rw [List.nil_append, nameAhead, nameAhead, if_neg hmark.1, if_neg hmark.2, hname]
      rfl
  | cons c u ih =>
    have hc : c ≠ '\\' := by
      rintro rfl
      exact hb List.mem_cons_self
    rw [List.cons_append, nameAhead, nameAhead, if_neg hc, if_neg hc,
      ih fun h => hb (List.mem_cons_of_mem _ h)]

omit hd in
/-- But for a hyphen and a backslash, the first character decides. -/
theorem nameStartsAt_cons {c : Char} (h : c ≠ '-') (hb : c ≠ '\\') (t : Text) :
    nameStartsAt (c :: t) = isNameStart c := by
  unfold nameStartsAt
  split <;> simp_all

theorem nameStartsAt_append {u : Text} (hb : '\\' ∉ u) :
    nameStartsAt (u ++ d) = nameStartsAt u := by
  have hnone : ∀ b ∈ boundaries, isNameStart b = false ∧ b ≠ '-' ∧ b ≠ '\\' := by decide
  cases u with
  | nil =>
    cases d with
    | nil => rfl
    | cons b d =>
      obtain ⟨h₁, h₂, h₃⟩ := hnone b (standsApart_cons.mp hd)
      rw [List.nil_append, nameStartsAt_cons h₂ h₃, h₁]
      rfl
  | cons c u =>
    have hc : c ≠ '\\' := by
      rintro rfl
      exact hb List.mem_cons_self
    by_cases hy : c = '-'
    · subst hy
      cases u with
      | cons e u => rfl
      | nil =>
        cases d with
        | nil => rfl
        | cons b d =>
          obtain ⟨h₁, h₂, h₃⟩ := hnone b (standsApart_cons.mp hd)
          show (isNameStart b || b == '-' || b == '\\') = false
          rw [h₁, beq_false_of_ne h₂, beq_false_of_ne h₃]
          rfl
    · rw [List.cons_append, nameStartsAt_cons hy hc, nameStartsAt_cons hy hc]

/-! ## Numerals -/

theorem digitAhead_append (u : Text) : digitAhead (u ++ d) = digitAhead u := by
  cases u with
  | cons c u => rfl
  | nil =>
    rcases hd.eq_nil_or (by decide : ∀ b ∈ boundaries, b.isDigit = false) with
      rfl | ⟨c, d', rfl, hc⟩
    · rfl
    · exact hc

theorem sign_ahead?_append (u : Text) : Sign.ahead? (u ++ d) = Sign.ahead? u := by
  cases u with
  | cons c u => rfl
  | nil =>
    cases d with
    | nil => rfl
    | cons b d =>
      exact (by decide : ∀ b ∈ boundaries, Sign.ofChar? b = none) b (standsApart_cons.mp hd)

theorem fractionAhead_append (u : Text) :
    Numeral.fractionAhead (u ++ d) = Numeral.fractionAhead u := by
  by_cases hdot : u.head? = some '.'
  · obtain ⟨u, rfl⟩ := List.head?_eq_some_iff.mp hdot
    exact takeWhile_append hd (by decide) u
  · have hdot' : (u ++ d).head? ≠ some '.' := by
      rwa [Ne, head?_append_iff hd (by decide)]
    have hnone : ∀ t : Text, t.head? ≠ some '.' → Numeral.fractionAhead t = [] := by
      intro t ht
      unfold Numeral.fractionAhead
      split
      next => exact absurd rfl ht
      next => rfl
    rw [hnone _ hdot, hnone _ hdot']

theorem exponentAhead_append (u : Text) :
    Numeral.exponentAhead (u ++ d) = Numeral.exponentAhead u := by
  cases u with
  | cons c u =>
    simp only [List.cons_append, Numeral.exponentAhead]
    rw [sign_ahead?_append hd, List.drop_append_of_le_length (length_sign_le u),
      takeWhile_append hd (by decide)]
  | nil =>
    cases d with
    | nil => rfl
    | cons b d =>
      have hb : b ≠ 'e' ∧ b ≠ 'E' :=
        (by decide : ∀ b ∈ boundaries, b ≠ 'e' ∧ b ≠ 'E') b (standsApart_cons.mp hd)
      rw [List.nil_append, Numeral.exponentAhead, if_neg (not_or.mpr hb)]
      rfl

theorem scan_append (u : Text) : Numeral.scan (u ++ d) = Numeral.scan u := by
  simp only [Numeral.scan]
  rw [sign_ahead?_append hd, List.drop_append_of_le_length (length_sign_le u),
    takeWhile_append hd (by decide),
    List.drop_append_of_le_length (length_takeWhile_le _ _), fractionAhead_append hd,
    List.drop_append_of_le_length (length_pointed_le _), exponentAhead_append hd]

theorem numeralStartsAt_append (u : Text) : numeralStartsAt (u ++ d) = numeralStartsAt u := by
  simp only [numeralStartsAt]
  rw [sign_ahead?_append hd, List.drop_append_of_le_length (length_sign_le u),
    digitAhead_append hd, fractionAhead_append hd]

theorem numericAhead_append {u : Text} (hb : '\\' ∉ u) :
    numericAhead (u ++ d) = numericAhead u := by
  have hb' : '\\' ∉ u.drop (Numeral.scan u).2 := fun h => hb (List.mem_of_mem_drop h)
  simp only [numericAhead]
  rw [scan_append hd, List.drop_append_of_le_length (Numeral.scan_le u),
    nameStartsAt_append hd hb', nameAhead_append hd hb']
  simp only [head?_append_iff hd (show '%' ∉ boundaries by decide)]

omit hd

/-! ## What runs on until its own end -/

theorem takeWhile_append_of_mem {p : Char → Bool} {x : Char} {u : Text} (hx : x ∈ u)
    (hp : p x = false) (d : Text) : (u ++ d).takeWhile p = u.takeWhile p := by
  induction u with
  | nil => cases hx
  | cons c u ih =>
    rw [List.cons_append, List.takeWhile_cons, List.takeWhile_cons]
    rcases List.mem_cons.mp hx with rfl | hx
    · rw [if_neg (by simp [hp]), if_neg (by simp [hp])]
    · rw [ih hx]

theorem drop_length_takeWhile (p : Char → Bool) (t : Text) :
    t.drop (t.takeWhile p).length = t.dropWhile p :=
  calc t.drop (t.takeWhile p).length
      = (t.takeWhile p ++ t.dropWhile p).drop (t.takeWhile p).length := by
        rw [List.takeWhile_append_dropWhile]
    _ = t.dropWhile p := List.drop_left

theorem mem_dropWhile {p : Char → Bool} {x : Char} {u : Text} (hx : x ∈ u)
    (hp : p x = false) : x ∈ u.dropWhile p := by
  rw [← List.takeWhile_append_dropWhile (p := p) (l := u), List.mem_append] at hx
  refine hx.resolve_left fun h => ?_
  rw [List.mem_takeWhile_imp h] at hp
  cases hp

/-- A string goes on as it does, unless a backslash stands in front. -/
theorem stringAhead_cons {quote c : Char} (hc : c ≠ '\\') (t : Text) :
    stringAhead quote (c :: t) =
      if c = quote then (([], true), 1)
      else if isNewline c then (([], false), 0)
      else (((if c = '\x00' then replacement else c) :: (stringAhead quote t).1.1,
        (stringAhead quote t).1.2), 1 + (stringAhead quote t).2) := by
  rw [stringAhead.eq_def]
  simp only [if_neg hc]

/-- A string whose closing quote is there. -/
theorem stringAhead_append {quote : Char} {u : Text} (hb : '\\' ∉ u) (hq : quote ∈ u)
    (d : Text) : stringAhead quote (u ++ d) = stringAhead quote u := by
  induction u with
  | nil => cases hq
  | cons c u ih =>
    have hc : c ≠ '\\' := by
      rintro rfl
      exact hb List.mem_cons_self
    rw [List.cons_append, stringAhead_cons hc, stringAhead_cons hc]
    by_cases hcq : c = quote
    · rw [if_pos hcq, if_pos hcq]
    · have hq' : quote ∈ u := (List.mem_cons.mp hq).resolve_left fun h => hcq h.symm
      rw [if_neg hcq, if_neg hcq, ih (fun h => hb (List.mem_cons_of_mem _ h)) hq']

/-- A comment whose end is there. -/
theorem commentLength_append {u : Text} (h : "*/".toList <:+: u) (d : Text) :
    commentLength (u ++ d) = commentLength u := by
  fun_induction commentLength u with
  | case1 t => rfl
  | case2 c t hend ih =>
    have ht : "*/".toList <:+: t := by
      rcases List.infix_cons_iff.mp h with ⟨z, hz⟩ | ht
      · cases hz
        exact absurd rfl (hend z rfl)
      · exact ht
    rw [← ih ht, List.cons_append]
    cases t with
    | nil => exact absurd ht (by decide)
    | cons e t =>
      rw [List.cons_append, commentLength]
      intro z hc hz
      cases hz
      exact hend t hc rfl
  | case3 => exact absurd h (by decide)

/-- The white space in an address, with something behind it. -/
theorem urlEndAhead_append {u : Text} {x : Char} (hx : x ∈ u) (hs : isSpace x = false)
    (d : Text) : urlEndAhead (u ++ d) = urlEndAhead u := by
  have hmem := mem_dropWhile hx hs
  simp only [urlEndAhead]
  rw [takeWhile_append_of_mem hx hs, List.drop_append_of_le_length (length_takeWhile_le _ _),
    drop_length_takeWhile]
  cases hdrop : u.dropWhile isSpace with
  | nil =>
    rw [hdrop] at hmem
    cases hmem
  | cons c t => rfl

/-- An address with a closing parenthesis behind it. -/
theorem urlAhead_append {u : Text} (hb : '\\' ∉ u) (hp : ')' ∈ u) (d : Text) :
    urlAhead (u ++ d) = urlAhead u := by
  induction u with
  | nil => cases hp
  | cons c u ih =>
    have hc : c ≠ '\\' := by
      rintro rfl
      exact hb List.mem_cons_self
    rw [List.cons_append, urlAhead, urlAhead]
    by_cases hs : isSpace c = true
    · rw [if_pos hs, if_pos hs, ← List.cons_append,
        urlEndAhead_append hp (by decide : isSpace ')' = false)]
    · rw [if_neg hs, if_neg hs]
      by_cases hcp : c = ')'
      · rw [if_pos hcp, if_pos hcp]
      · have hp' : ')' ∈ u := (List.mem_cons.mp hp).resolve_left fun h => hcp h.symm
        rw [if_neg hcp, if_neg hcp, if_neg hc, if_neg hc,
          ih (fun h => hb (List.mem_cons_of_mem _ h)) hp']

/-! ## Tokens -/

/-- Whether the token goes on until it finds its own end: white space, comments, strings,
addresses, and a name with the parenthesis behind it, of which only what follows tells that
it is not an address. -/
def Token.runsOn : Token → Bool
  | space | comment | string _ | badString _ | function _ | url _ | badUrl _ => true
  | _ => false

theorem runsOn_urlTokenAhead (name t : Text) : (urlTokenAhead name t).1.runsOn = true := by
  simp only [urlTokenAhead]
  split
  · rfl
  · split <;> rfl

theorem identLikeAhead_of_paren {t rest : Text}
    (h : t.drop (nameAhead t).2 = '(' :: rest) :
    identLikeAhead t =
      if (nameAhead t).1.sameName "url".toList then
        ((urlTokenAhead (nameAhead t).1 rest).1,
          (nameAhead t).2 + 1 + (urlTokenAhead (nameAhead t).1 rest).2)
      else (.function (nameAhead t).1, (nameAhead t).2 + 1) := by
  simp only [identLikeAhead, h]

theorem identLikeAhead_of_no_paren {t : Text}
    (h : (t.drop (nameAhead t).2).head? ≠ some '(') :
    identLikeAhead t = (.ident (nameAhead t).1, (nameAhead t).2) := by
  simp only [identLikeAhead]
  split
  next hdrop => rw [hdrop] at h; exact absurd rfl h
  next => rfl

theorem runsOn_identLikeAhead {t rest : Text} (h : t.drop (nameAhead t).2 = '(' :: rest) :
    (identLikeAhead t).1.runsOn = true := by
  rw [identLikeAhead_of_paren h]
  split
  · exact runsOn_urlTokenAhead _ _
  · rfl

include hd

/-- A name that no parenthesis follows is the same in front of a text that stands apart. -/
theorem identLikeAhead_append {u : Text} (hb : '\\' ∉ u) :
    identLikeAhead (u ++ d) = identLikeAhead u ∨
      ((identLikeAhead (u ++ d)).1.runsOn = true ∧ (identLikeAhead u).1.runsOn = true) := by
  have hname : nameAhead (u ++ d) = nameAhead u := nameAhead_append hd hb
  have hdrop : (u ++ d).drop (nameAhead (u ++ d)).2 = u.drop (nameAhead u).2 ++ d := by
    rw [hname, List.drop_append_of_le_length (nameAhead_le u)]
  by_cases hparen : (u.drop (nameAhead u).2).head? = some '('
  · obtain ⟨rest, hrest⟩ := List.head?_eq_some_iff.mp hparen
    rw [hrest] at hdrop
    exact .inr ⟨runsOn_identLikeAhead hdrop, runsOn_identLikeAhead hrest⟩
  · refine .inl ?_
    rw [identLikeAhead_of_no_paren hparen, identLikeAhead_of_no_paren, hname]
    rwa [hdrop, Ne, head?_append_iff hd (by decide)]

theorem matchAhead_append (c : Char) (token : Token) (u : Text) :
    matchAhead c token (u ++ d) = matchAhead c token u := by
  simp only [matchAhead, head?_append_iff hd (show '=' ∉ boundaries by decide)]

/-- A mark is the same in front of a text that stands apart, unless it begins a string or a
comment. -/
theorem markAhead_append (c : Char) {u : Text} (hb : '\\' ∉ u) :
    markAhead c (u ++ d) = markAhead c u ∨
      ((markAhead c (u ++ d)).1.runsOn = true ∧ (markAhead c u).1.runsOn = true) := by
  have hquoted : ∀ quote t, (quotedAhead quote t).1.runsOn = true := by
    intro quote t
    simp only [quotedAhead]
    split <;> rfl
  unfold markAhead
  split
  case h_1 | h_2 => exact .inr ⟨hquoted _ _, hquoted _ _⟩
  case h_3 | h_4 =>
    refine .inl ?_
    simp only [nameAhead_append hd hb, nameStartsAt_append hd hb, digitAhead_append hd,
      head?_append_iff hd (show '-' ∉ boundaries by decide)]
  case h_5 =>
    by_cases hstar : u.head? = some '*'
    · have hstar' := (head?_append_iff hd (by decide) u).mpr hstar
      rw [if_pos hstar, if_pos hstar']
      exact .inr ⟨rfl, rfl⟩
    · have hstar' := mt (head?_append_iff hd (by decide) u).mp hstar
      rw [if_neg hstar, if_neg hstar']
      exact .inl rfl
  case h_6 =>
    rw [isPrefixOf_append hd (by decide)]
    exact .inl rfl
  case h_7 | h_8 | h_9 | h_10 | h_11 => exact .inl (matchAhead_append hd _ _ u)
  all_goals exact .inl rfl

/-- What decides of which sort a token is lies in front of what stands apart. -/
theorem Token.ahead_append_eq {c : Char} {u : Text} (hb : '\\' ∉ c :: u) :
    Token.ahead c (u ++ d) =
      if isSpace c then (.space, 1 + ((u ++ d).takeWhile isSpace).length)
      else if numeralStartsAt (c :: u) then numericAhead (c :: u)
      else if "-->".toList.isPrefixOf (c :: u) then (.commentClose, 3)
      else if nameStartsAt (c :: u) then identLikeAhead (c :: u ++ d)
      else markAhead c (u ++ d) := by
  rw [Token.ahead, ← List.cons_append, numeralStartsAt_append hd, numericAhead_append hd hb,
    isPrefixOf_append hd (by decide), nameStartsAt_append hd hb]

/-- **A token is the same in front of a text that stands apart, unless it runs on.** -/
theorem Token.ahead_append {c : Char} {u : Text} (hb : '\\' ∉ c :: u) :
    Token.ahead c (u ++ d) = Token.ahead c u ∨
      ((Token.ahead c (u ++ d)).1.runsOn = true ∧ (Token.ahead c u).1.runsOn = true) := by
  rw [Token.ahead_append_eq hd hb, Token.ahead]
  split
  · exact .inr ⟨rfl, rfl⟩
  · split
    · exact .inl rfl
    · split
      · exact .inl rfl
      · split
        · exact identLikeAhead_append hd hb
        · exact markAhead_append hd c fun h => hb (List.mem_cons_of_mem _ h)

end StyleAudit.Css
