import StyleAudit.Proofs.Css.WholeToken
import StyleAudit.Proofs.Text.Returns

/-!
# Scanning a text with returns

A text without carriage returns is scanned in the same way when a return is put before every line
feed in it.  There is one statement for each scanner, of the same form throughout: it finds what
it found before, and takes the stretch of what it took before.  The scanners that look for line
ends take a return and a line feed together; the others stop at either, or take both.

One token keeps text as it is written and not as it is meant, an address without quotes that is
broken.  Such a token has the returns as well (`Token.withReturns`); all other tokens are the same.

**The lexemes of the text with returns are the lexemes of the text, with returns in their texts,
and they stand at the same places** (`lexemes_withReturns`).
-/

namespace StyleAudit.Css

open Text (withReturns stretch)

/-! ## Line ends -/

section LineEnds

variable {t : Text}

theorem notMem_drop {x : Char} (h : x ∉ t) (n : Nat) : x ∉ t.drop n := fun hx =>
  h (List.mem_of_mem_drop hx)

/-- A front without line feeds is taken as it is. -/
theorem stretch_of_prefix {u : Text} (hu : u <+: t) (h : '\n' ∉ u) :
    stretch t u.length = u.length := by
  refine Text.stretch_of_notMem ?_ hu.length_le
  rwa [← List.prefix_iff_eq_take.mp hu]

theorem newlineAhead_withReturns (t : Text) : newlineAhead (withReturns t) = newlineAhead t := by
  cases t with
  | nil => rfl
  | cons c t =>
    by_cases h : c = '\n'
    · subst h; rfl
    · rw [Text.withReturns_cons h]; rfl

theorem newlineLength_cons {c : Char} (h : c ≠ '\r') (t : Text) :
    newlineLength (c :: t) = if isNewline c then 1 else 0 := by
  unfold newlineLength
  split
  next heq => cases heq; exact absurd rfl h
  next heq => cases heq; rfl
  next heq => cases heq

theorem spaceLength_cons {c : Char} (h : c ≠ '\r') (t : Text) :
    spaceLength (c :: t) = if isSpace c then 1 else 0 := by
  unfold spaceLength
  split
  next heq => cases heq; exact absurd rfl h
  next heq => cases heq; rfl
  next heq => cases heq

/-- A length of one or zero. -/
theorem stretch_ite {c : Char} (h : c ≠ '\n') (t : Text) (b : Bool) :
    stretch (c :: t) (if b then 1 else 0) = if b then 1 else 0 := by
  cases b
  · rfl
  · exact Text.stretch_cons_one h t

theorem newlineLength_withReturns (h : '\r' ∉ t) :
    newlineLength (withReturns t) = stretch t (newlineLength t) := by
  cases t with
  | nil => rfl
  | cons c t =>
    by_cases hn : c = '\n'
    · subst hn; rfl
    · have hr : c ≠ '\r' := (List.ne_of_not_mem_cons h).symm
      rw [Text.withReturns_cons hn, newlineLength_cons hr, newlineLength_cons hr, stretch_ite hn]

theorem spaceLength_withReturns (h : '\r' ∉ t) :
    spaceLength (withReturns t) = stretch t (spaceLength t) := by
  cases t with
  | nil => rfl
  | cons c t =>
    by_cases hn : c = '\n'
    · subst hn; rfl
    · have hr : c ≠ '\r' := (List.ne_of_not_mem_cons h).symm
      rw [Text.withReturns_cons hn, spaceLength_cons hr, spaceLength_cons hr, stretch_ite hn]

end LineEnds

/-! ## Escapes and names -/

section Names

variable {t : Text}

theorem escapeAhead_withReturns (hr : '\r' ∉ t) (hnew : newlineAhead t = false) :
    escapeAhead (withReturns t) = ((escapeAhead t).1, stretch t (escapeAhead t).2) := by
  have hplain : '\n' ∉ t.takeWhile isHexDigit := fun hmem =>
    absurd (List.mem_takeWhile_imp hmem) (by decide)
  have hdigits : ((withReturns t).take 6).takeWhile isHexDigit =
      (t.take 6).takeWhile isHexDigit := by
    rw [← List.take_takeWhile, ← List.take_takeWhile, Text.takeWhile_withReturns rfl,
      Text.withReturns_of_notMem hplain]
  simp only [escapeAhead, hdigits]
  generalize hds : (t.take 6).takeWhile isHexDigit = digits
  have hprefix : digits <+: t := by
    rw [← hds, ← List.take_takeWhile]
    exact (List.take_prefix _ _).trans (List.takeWhile_prefix _)
  have hlength : stretch t digits.length = digits.length := by
    refine stretch_of_prefix hprefix fun hmem => hplain ?_
    rw [← hds, ← List.take_takeWhile] at hmem
    exact List.mem_of_mem_take hmem
  split
  · cases t with
    | nil => rfl
    | cons c t =>
      have hc : c ≠ '\n' := by rintro rfl; cases hnew
      rw [Text.withReturns_cons hc]
      exact congrArg (Prod.mk _) (Text.stretch_cons_one hc t).symm
  · rw [Text.stretch_add, hlength, ← spaceLength_withReturns (notMem_drop hr _),
      ← Text.drop_stretch, hlength]

theorem nameAhead_withReturns (hr : '\r' ∉ t) :
    nameAhead (withReturns t) = ((nameAhead t).1, stretch t (nameAhead t).2) := by
  fun_induction nameAhead t with
  | case1 => rw [Text.withReturns_nil, nameAhead]; rfl
  | case2 t hnew =>
    rw [Text.withReturns_cons (by decide), nameAhead, if_pos rfl, newlineAhead_withReturns,
      if_pos hnew]
    rfl
  | case3 t hnew e r ih =>
    have hr : '\r' ∉ t := List.not_mem_of_not_mem_cons hr
    have he := escapeAhead_withReturns hr (by simpa using hnew)
    have ih := ih (notMem_drop hr e.2)
    rw [Text.withReturns_cons (by decide), nameAhead, if_pos rfl, newlineAhead_withReturns,
      if_neg hnew]
    simp only [e] at ih
    simp only [he, Text.drop_stretch, ih, r, e]
    rw [Nat.add_assoc 1, Nat.add_assoc 1, Text.stretch_cons (by decide), Text.stretch_add]
  | case4 t hb r ih =>
    have hr : '\r' ∉ t := List.not_mem_of_not_mem_cons hr
    rw [Text.withReturns_cons (by decide), nameAhead, if_neg (by decide), if_pos rfl]
    simp only [ih hr]
    rw [Text.stretch_cons (by decide)]
  | case5 c t hb hz hc r ih =>
    have hr : '\r' ∉ t := List.not_mem_of_not_mem_cons hr
    have hn : c ≠ '\n' := by rintro rfl; exact absurd hc (by decide)
    rw [Text.withReturns_cons hn, nameAhead, if_neg hb, if_neg hz, if_pos hc]
    simp only [ih hr]
    rw [Text.stretch_cons hn]
  | case6 c t hb hz hc =>
    by_cases hn : c = '\n'
    · subst hn
      rw [Text.withReturns_newline, nameAhead, if_neg (by decide), if_neg (by decide),
        if_neg (by decide)]
      rfl
    · rw [Text.withReturns_cons hn, nameAhead, if_neg hb, if_neg hz, if_neg hc]
      rfl

theorem nameStartsAt_withReturns (t : Text) :
    nameStartsAt (withReturns t) = nameStartsAt t := by
  cases t with
  | nil => rfl
  | cons c t =>
    by_cases hn : c = '\n'
    · subst hn; rfl
    rw [Text.withReturns_cons hn]
    by_cases hb : c = '\\'
    · subst hb
      exact congrArg not (newlineAhead_withReturns t)
    by_cases hd : c = '-'
    · subst hd
      cases t with
      | nil => rfl
      | cons d t =>
        by_cases hn : d = '\n'
        · subst hn; rfl
        · rw [Text.withReturns_cons hn]; rfl
    · rw [nameStartsAt_cons hd hb, nameStartsAt_cons hd hb]

end Names

/-! ## Comments, strings and addresses -/

section Quoted

variable {t : Text}

theorem commentLength_cons {c : Char} (h : c = '*' → t.head? ≠ some '/') :
    commentLength (c :: t) = 1 + commentLength t := by
  rw [commentLength]
  rintro u rfl rfl
  exact h rfl rfl

theorem commentLength_withReturns (t : Text) :
    commentLength (withReturns t) = stretch t (commentLength t) := by
  fun_induction commentLength t with
  | case1 t => rfl
  | case2 c t hclose ih =>
    by_cases hn : c = '\n'
    · subst hn
      rw [Text.withReturns_newline, commentLength_cons (by simp), commentLength_cons (by simp), ih,
        Text.stretch_newline, ← Nat.add_assoc]
    · rw [Text.withReturns_cons hn, commentLength_cons, ih, Text.stretch_cons hn]
      intro hc hhead
      obtain ⟨u, hu⟩ := Text.exists_cons_of_head?_withReturns (by decide) (by decide) hhead
      exact hclose u hc hu
  | case3 => rfl

/-- A line end that a backslash precedes is passed over. -/
theorem stringAhead_lineEnd {quote : Char} (hq : '\\' ≠ quote) (h : newlineAhead t = true) :
    stringAhead quote ('\\' :: t) =
      ((stringAhead quote (t.drop (newlineLength t))).1,
        1 + newlineLength t + (stringAhead quote (t.drop (newlineLength t))).2) := by
  cases t with
  | nil => cases h
  | cons d u =>
    rw [stringAhead, if_neg hq, if_neg (by decide), if_pos rfl]
    exact if_pos h

/-- An escape in a string. -/
theorem stringAhead_escape {quote : Char} (hq : '\\' ≠ quote) (hne : t ≠ [])
    (h : newlineAhead t = false) :
    stringAhead quote ('\\' :: t) =
      (((escapeAhead t).1 :: (stringAhead quote (t.drop (escapeAhead t).2)).1.1,
          (stringAhead quote (t.drop (escapeAhead t).2)).1.2),
        1 + (escapeAhead t).2 + (stringAhead quote (t.drop (escapeAhead t).2)).2) := by
  cases t with
  | nil => exact absurd rfl hne
  | cons d u =>
    rw [stringAhead, if_neg hq, if_neg (by decide), if_pos rfl]
    exact if_neg (by rw [show isNewline d = false from h]; exact Bool.false_ne_true)

theorem stringAhead_withReturns {quote : Char} (hquote : isNewline quote = false)
    (hr : '\r' ∉ t) :
    stringAhead quote (withReturns t) =
      ((stringAhead quote t).1, stretch t (stringAhead quote t).2) := by
  fun_induction stringAhead quote t with
  | case1 => rw [Text.withReturns_nil, stringAhead]; rfl
  | case2 t =>
    have hn : quote ≠ '\n' := by rintro rfl; cases hquote
    rw [Text.withReturns_cons hn, stringAhead.eq_def]
    simp only [if_true]
    rw [Text.stretch_cons_one hn]
  | case3 c t hc hnew =>
    by_cases hn : c = '\n'
    · subst hn
      have hc : '\r' ≠ quote := by rintro rfl; cases hquote
      rw [Text.withReturns_newline, stringAhead_cons (by decide), if_neg hc, if_pos (by decide)]
      rfl
    · have hb : c ≠ '\\' := by rintro rfl; cases hnew
      rw [Text.withReturns_cons hn, stringAhead_cons hb, if_neg hc, if_pos hnew]
      rfl
  | case4 hq hnew =>
    show stringAhead quote ['\\'] = _
    rw [stringAhead, if_neg hq, if_neg hnew, if_pos rfl]
    rfl
  | case5 d u hnew n r hq _ ih =>
    have hr : '\r' ∉ d :: u := List.not_mem_of_not_mem_cons hr
    have hnew : newlineAhead (d :: u) = true := hnew
    have ih := ih (notMem_drop hr n)
    rw [Text.withReturns_cons (by decide),
      stringAhead_lineEnd hq ((newlineAhead_withReturns _).trans hnew),
      newlineLength_withReturns hr, Text.drop_stretch]
    simp only [n] at ih
    simp only [ih, r, n]
    rw [Nat.add_assoc 1, Nat.add_assoc 1, Text.stretch_cons (by decide), Text.stretch_add]
  | case6 d u hnew e r hq _ ih =>
    have hr : '\r' ∉ d :: u := List.not_mem_of_not_mem_cons hr
    have hnew : newlineAhead (d :: u) = false := eq_false_of_ne_true hnew
    have ih := ih (notMem_drop hr e.2)
    rw [Text.withReturns_cons (by decide), stringAhead_escape hq
      (fun h => List.cons_ne_nil d u (Text.withReturns_eq_nil_iff.mp h))
      ((newlineAhead_withReturns _).trans hnew), escapeAhead_withReturns hr hnew]
    simp only [e] at ih
    simp only [Text.drop_stretch, ih, r, e]
    rw [Nat.add_assoc 1, Nat.add_assoc 1, Text.stretch_cons (by decide), Text.stretch_add]
  | case7 c t hc hnew hb r ih =>
    have hr : '\r' ∉ t := List.not_mem_of_not_mem_cons hr
    have hn : c ≠ '\n' := by rintro rfl; exact hnew rfl
    rw [Text.withReturns_cons hn, stringAhead_cons hb, if_neg hc, if_neg hnew]
    simp only [ih hr, r]
    rw [Text.stretch_cons hn]

theorem urlEndAhead_withReturns (t : Text) :
    urlEndAhead (withReturns t) = ((urlEndAhead t).1, stretch t (urlEndAhead t).2) := by
  have hdrop : t.drop (t.takeWhile isSpace).length = t.dropWhile isSpace :=
    drop_length_takeWhile isSpace t
  have hspace : isSpace '\r' = isSpace '\n' := rfl
  simp only [urlEndAhead, Text.length_takeWhile_withReturns hspace, Text.drop_stretch]
  rw [hdrop]
  cases hrest : t.dropWhile isSpace with
  | nil => rfl
  | cons c u =>
    have hc := List.head?_dropWhile_not isSpace t
    rw [hrest] at hc
    have hn : c ≠ '\n' := by rintro rfl; cases hc
    rw [Text.withReturns_cons hn]
    simp only [Text.stretch_add, hdrop, hrest, Text.stretch_cons_one hn]

theorem urlAhead_withReturns (hr : '\r' ∉ t) :
    urlAhead (withReturns t) = ((urlAhead t).1, stretch t (urlAhead t).2) := by
  fun_induction urlAhead t with
  | case1 => rw [Text.withReturns_nil, urlAhead]; rfl
  | case2 c t hspace e =>
    -- the front is white space in either text, so the two are read by the same reader
    have hfront : ∃ d u, withReturns (c :: t) = d :: u ∧ isSpace d = true := by
      by_cases hn : c = '\n'
      · subst hn; exact ⟨'\r', '\n' :: withReturns t, rfl, rfl⟩
      · exact ⟨c, withReturns t, Text.withReturns_cons hn t, hspace⟩
    obtain ⟨d, u, hdu, hd⟩ := hfront
    have hend := urlEndAhead_withReturns (c :: t)
    rw [hdu] at hend
    rw [hdu, urlAhead, if_pos hd]
    simp only [hend, e]
  | case3 t hspace =>
    rw [Text.withReturns_cons (by decide), urlAhead, if_neg hspace, if_pos rfl]
    rw [Text.stretch_cons_one (by decide)]
  | case4 c t hspace hclose hbreak =>
    have hn : c ≠ '\n' := by rintro rfl; exact hspace rfl
    rw [Text.withReturns_cons hn, urlAhead, if_neg hspace, if_neg hclose, if_pos hbreak]
    rw [Text.stretch_cons_one hn]
  | case5 t hnew hspace hclose hbreak =>
    rw [Text.withReturns_cons (by decide), urlAhead, if_neg hspace, if_neg hclose, if_neg hbreak,
      if_pos rfl, newlineAhead_withReturns, if_pos hnew, Text.stretch_cons_one (by decide)]
  | case6 t hnew e r hspace hclose hbreak ih =>
    have hr : '\r' ∉ t := List.not_mem_of_not_mem_cons hr
    have ih := ih (notMem_drop hr e.2)
    rw [Text.withReturns_cons (by decide), urlAhead, if_neg hspace, if_neg hclose, if_neg hbreak,
      if_pos rfl, newlineAhead_withReturns, if_neg hnew,
      escapeAhead_withReturns hr (eq_false_of_ne_true hnew)]
    simp only [e] at ih
    simp only [Text.drop_stretch, ih, r, e]
    rw [Nat.add_assoc 1, Nat.add_assoc 1, Text.stretch_cons (by decide), Text.stretch_add]
  | case7 c t hspace hclose hbreak hb r ih =>
    have hr : '\r' ∉ t := List.not_mem_of_not_mem_cons hr
    have hn : c ≠ '\n' := by rintro rfl; exact hspace rfl
    rw [Text.withReturns_cons hn, urlAhead, if_neg hspace, if_neg hclose, if_neg hbreak,
      if_neg hb]
    simp only [ih hr, r]
    rw [Text.stretch_cons hn]

theorem brokenUrlLength_cons {c : Char} (hc : c ≠ ')')
    (h : c = '\\' → t.head? ≠ some ')' ∧ t.head? ≠ some '\\') :
    brokenUrlLength (c :: t) = 1 + brokenUrlLength t := by
  rw [brokenUrlLength]
  · exact hc
  · rintro u rfl rfl
    exact (h rfl).1 rfl
  · rintro u rfl rfl
    exact (h rfl).2 rfl

theorem brokenUrlLength_withReturns (t : Text) :
    brokenUrlLength (withReturns t) = stretch t (brokenUrlLength t) := by
  fun_induction brokenUrlLength t with
  | case1 => rfl
  | case2 t => rw [Text.withReturns_cons (by decide), brokenUrlLength]; rfl
  | case3 t ih | case4 t ih =>
    rw [Text.withReturns_cons (by decide), Text.withReturns_cons (by decide), brokenUrlLength, ih,
      Text.stretch_add]
    rfl
  | case5 c t hclose hparen hslash ih =>
    by_cases hn : c = '\n'
    · subst hn
      rw [Text.withReturns_newline, brokenUrlLength_cons (by decide) (by simp),
        brokenUrlLength_cons (by decide) (by simp), ih, Text.stretch_newline, ← Nat.add_assoc]
    · rw [Text.withReturns_cons hn, brokenUrlLength_cons hclose, ih, Text.stretch_cons hn]
      intro hc
      constructor <;> intro hhead <;>
        obtain ⟨u, hu⟩ := Text.exists_cons_of_head?_withReturns (by decide) (by decide) hhead
      · exact hparen u hc hu
      · exact hslash u hc hu

end Quoted

/-! ## Tokens -/

/-- The token in the text with returns.  Only the text of a broken address is text as it is
written. -/
def Token.withReturns : Token → Token
  | badUrl v => badUrl (Text.withReturns v)
  | token => token

section Tokens

variable {t : Text}

/-- A broken address goes on to a parenthesis or to the end of the text. -/
theorem drop_brokenUrlLength (t : Text) :
    t.drop (brokenUrlLength t) = [] ∨ ∃ u, t.drop (brokenUrlLength t) = ')' :: u := by
  fun_induction brokenUrlLength t with
  | case1 => exact .inl rfl
  | case2 t => exact .inr ⟨t, rfl⟩
  | case3 t ih | case4 t ih => rwa [Nat.add_comm]
  | case5 c t hclose hparen hslash ih => rwa [Nat.add_comm]

/-- How many characters a broken address takes, its parenthesis not counted. -/
def brokenLength (body : Text) : Nat :=
  (urlAhead body).2 + brokenUrlLength (body.drop (urlAhead body).2)

theorem urlTokenAhead_eq_badUrl {name : Text} (h : ¬ quoteAhead t)
    (hv : (urlAhead (t.dropWhile isSpace)).1 = none) :
    urlTokenAhead name t =
      (.badUrl ((t.dropWhile isSpace).take (brokenLength (t.dropWhile isSpace))),
        (t.takeWhile isSpace).length + brokenLength (t.dropWhile isSpace) +
          (((t.dropWhile isSpace).drop (brokenLength (t.dropWhile isSpace))).take 1).length) := by
  unfold quoteAhead at h
  simp only [urlTokenAhead, drop_length_takeWhile]
  rw [if_neg h, hv]
  rfl

theorem brokenLength_withReturns {body : Text} (hr : '\r' ∉ body) :
    brokenLength (withReturns body) = stretch body (brokenLength body) := by
  rw [brokenLength, urlAhead_withReturns hr, Text.drop_stretch, brokenUrlLength_withReturns,
    ← Text.stretch_add]
  rfl

/-- What stands behind a broken address, if anything does, is one character and no line end. -/
theorem length_take_one_withReturns (body : Text) :
    ((withReturns (body.drop (brokenLength body))).take 1).length =
      stretch (body.drop (brokenLength body)) ((body.drop (brokenLength body)).take 1).length := by
  rw [brokenLength, ← List.drop_drop]
  rcases drop_brokenUrlLength (body.drop (urlAhead body).2) with h | ⟨u, h⟩ <;> rw [h] <;> rfl

theorem quoteAhead_withReturns (t : Text) : quoteAhead (withReturns t) ↔ quoteAhead t := by
  have hspace : isSpace '\r' = isSpace '\n' := rfl
  rw [quoteAhead, Text.dropWhile_withReturns hspace, Text.head?_withReturns (by decide) (by decide),
    Text.head?_withReturns (by decide) (by decide), quoteAhead]

theorem urlTokenAhead_withReturns (hr : '\r' ∉ t) (name : Text) :
    urlTokenAhead name (withReturns t) =
      ((urlTokenAhead name t).1.withReturns, stretch t (urlTokenAhead name t).2) := by
  have hspace : isSpace '\r' = isSpace '\n' := rfl
  by_cases hquote : quoteAhead t
  · rw [urlTokenAhead_of_quote hquote,
      urlTokenAhead_of_quote ((quoteAhead_withReturns t).mpr hquote)]
    rfl
  have hquote' : ¬ quoteAhead (withReturns t) := fun h => hquote ((quoteAhead_withReturns t).mp h)
  have hdrop : t.drop (t.takeWhile isSpace).length = t.dropWhile isSpace :=
    drop_length_takeWhile isSpace t
  have hbody : '\r' ∉ t.dropWhile isSpace := fun h => hr ((List.dropWhile_suffix _).mem h)
  have hurl := urlAhead_withReturns hbody
  rw [← Text.dropWhile_withReturns hspace] at hurl
  cases hvalue : (urlAhead (t.dropWhile isSpace)).1 with
  | some value =>
    rw [urlTokenAhead_of_value hquote hvalue,
      urlTokenAhead_of_value hquote' (by rw [hurl]; exact hvalue), hurl,
      Text.length_takeWhile_withReturns hspace, Text.stretch_add, hdrop]
    rfl
  | none =>
    rw [urlTokenAhead_eq_badUrl hquote hvalue,
      urlTokenAhead_eq_badUrl hquote' (by rw [hurl]; exact hvalue),
      Text.dropWhile_withReturns hspace, Text.length_takeWhile_withReturns hspace,
      brokenLength_withReturns hbody, Text.take_stretch, Text.drop_stretch,
      length_take_one_withReturns, Text.stretch_add, Text.stretch_add, hdrop, ← List.drop_drop,
      hdrop]
    rfl

/-! A name, a numeral and the signs of the grammar hold no line feed.  They are read up to the
first one, if not up to something before it, and a text stands apart from what is before it
whether it begins with the line feed or with the return. -/

/-- A text up to its first line feed, and what stands behind that front in either text. -/
theorem exists_seam (t : Text) :
    ∃ u d d', t = u ++ d ∧ withReturns t = u ++ d' ∧ '\n' ∉ u ∧ StandsApart d ∧
      StandsApart d' := by
  have hplain : '\n' ∉ t.takeWhile (· != '\n') := fun h =>
    absurd (List.mem_takeWhile_imp h) (by decide)
  refine ⟨t.takeWhile (· != '\n'), t.dropWhile (· != '\n'),
    withReturns (t.dropWhile (· != '\n')), List.takeWhile_append_dropWhile.symm, ?_, hplain, ?_⟩
  · conv_lhs => rw [← List.takeWhile_append_dropWhile (p := (· != '\n')) (l := t)]
    rw [Text.withReturns_append, Text.withReturns_of_notMem hplain]
  · cases hd : t.dropWhile (· != '\n') with
    | nil => exact ⟨standsApart_nil, standsApart_nil⟩
    | cons c d =>
      have hc := List.head?_dropWhile_not (· != '\n') t
      rw [hd] at hc
      have hc : c = '\n' := by simpa using hc
      subst hc
      exact ⟨standsApart_cons.mpr (by decide), standsApart_cons.mpr (by decide)⟩

theorem stretch_append_of_le {u d : Text} {n : Nat} (h : '\n' ∉ u) (hn : n ≤ u.length) :
    stretch (u ++ d) n = n := by
  refine Text.stretch_of_notMem (fun hmem => h ?_) (by rw [List.length_append]; omega)
  rw [List.take_append_of_le_length hn] at hmem
  exact List.mem_of_mem_take hmem

theorem scan_withReturns (t : Text) :
    Numeral.scan (withReturns t) = Numeral.scan t ∧
      stretch t (Numeral.scan t).2 = (Numeral.scan t).2 := by
  obtain ⟨u, d, d', ht, hreturns, hplain, hd, hd'⟩ := exists_seam t
  rw [hreturns, ht, scan_append hd, scan_append hd']
  exact ⟨rfl, stretch_append_of_le hplain (Numeral.scan_le u)⟩

theorem numeralStartsAt_withReturns (t : Text) :
    numeralStartsAt (withReturns t) = numeralStartsAt t := by
  obtain ⟨u, d, d', ht, hreturns, -, hd, hd'⟩ := exists_seam t
  rw [hreturns, ht, numeralStartsAt_append hd, numeralStartsAt_append hd']

theorem digitAhead_withReturns (t : Text) : digitAhead (withReturns t) = digitAhead t := by
  obtain ⟨u, d, d', ht, hreturns, -, hd, hd'⟩ := exists_seam t
  rw [hreturns, ht, digitAhead_append hd, digitAhead_append hd']

theorem isPrefixOf_withReturns {w : Text} (hw : ∀ c ∈ w, c ∉ boundaries) (t : Text) :
    w.isPrefixOf (withReturns t) = w.isPrefixOf t := by
  obtain ⟨u, d, d', ht, hreturns, -, hd, hd'⟩ := exists_seam t
  rw [hreturns, ht, isPrefixOf_append hd hw, isPrefixOf_append hd' hw]

/-! ## The token at the front -/

theorem identLikeAhead_withReturns (hr : '\r' ∉ t) :
    identLikeAhead (withReturns t) =
      ((identLikeAhead t).1.withReturns, stretch t (identLikeAhead t).2) := by
  have hname := nameAhead_withReturns hr
  have hdrop : (withReturns t).drop (nameAhead (withReturns t)).2 =
      withReturns (t.drop (nameAhead t).2) := by
    rw [hname, Text.drop_stretch]
  by_cases hparen : (t.drop (nameAhead t).2).head? = some '('
  · obtain ⟨rest, hrest⟩ := List.head?_eq_some_iff.mp hparen
    have hrest' : '\r' ∉ rest :=
      List.not_mem_of_not_mem_cons (hrest ▸ notMem_drop hr (nameAhead t).2)
    rw [hrest, Text.withReturns_cons (by decide)] at hdrop
    rw [identLikeAhead_of_paren hrest, identLikeAhead_of_paren hdrop, hname,
      urlTokenAhead_withReturns hrest']
    have hone : ∀ n, stretch t ((nameAhead t).2 + 1 + n) =
        stretch t (nameAhead t).2 + 1 + stretch rest n := by
      intro n
      rw [Nat.add_assoc, Text.stretch_add, hrest, Text.stretch_cons (by decide), Nat.add_assoc]
    split
    · simp only [hone]
    · exact congrArg (Prod.mk _) (hone 0).symm
  · have hparen' : ((withReturns t).drop (nameAhead (withReturns t)).2).head? ≠ some '(' := by
      rwa [hdrop, Ne, Text.head?_withReturns (by decide) (by decide)]
    rw [identLikeAhead_of_no_paren hparen, identLikeAhead_of_no_paren hparen', hname]
    rfl

theorem numericAhead_withReturns (hr : '\r' ∉ t) :
    numericAhead (withReturns t) =
      ((numericAhead t).1.withReturns, stretch t (numericAhead t).2) := by
  obtain ⟨hscan, hstretch⟩ := scan_withReturns t
  have hdrop : (withReturns t).drop (Numeral.scan t).2 =
      withReturns (t.drop (Numeral.scan t).2) := by
    rw [← Text.drop_stretch, hstretch]
  simp only [numericAhead, hscan, hdrop, nameStartsAt_withReturns,
    nameAhead_withReturns (notMem_drop hr _), Text.head?_withReturns (show '%' ≠ '\r' by decide)
      (show '%' ≠ '\n' by decide)]
  split
  next hpercent =>
    obtain ⟨u, hu⟩ := List.head?_eq_some_iff.mp hpercent
    rw [Text.stretch_add, hstretch, hu, Text.stretch_cons_one (by decide)]
    rfl
  next =>
    split
    · rw [Text.stretch_add, hstretch]
      rfl
    · rw [hstretch]
      rfl

theorem quotedAhead_withReturns {quote : Char} (hquote : isNewline quote = false) (hr : '\r' ∉ t)
    {c : Char} (hc : c ≠ '\n') :
    quotedAhead quote (withReturns t) =
      ((quotedAhead quote t).1.withReturns, stretch (c :: t) (quotedAhead quote t).2) := by
  simp only [quotedAhead, stringAhead_withReturns hquote hr, Text.stretch_cons hc]
  split <;> rfl

theorem matchAhead_withReturns {c : Char} (hc : c ≠ '\n') {token : Token}
    (htoken : token.withReturns = token) (t : Text) :
    matchAhead c token (withReturns t) =
      ((matchAhead c token t).1.withReturns, stretch (c :: t) (matchAhead c token t).2) := by
  simp only [matchAhead, Text.head?_withReturns (show '=' ≠ '\r' by decide)
      (show '=' ≠ '\n' by decide)]
  split
  next hmatch =>
    obtain ⟨u, rfl⟩ := List.head?_eq_some_iff.mp hmatch
    rw [htoken, Text.stretch_cons hc _ 1, Text.stretch_cons_one (by decide)]
  next =>
    rw [Text.stretch_cons_one hc]
    rfl

theorem markAhead_withReturns {c : Char} (hc : c ≠ '\n') (hr : '\r' ∉ t) :
    markAhead c (withReturns t) =
      ((markAhead c t).1.withReturns, stretch (c :: t) (markAhead c t).2) := by
  have hone := Text.stretch_cons_one hc t
  unfold markAhead
  split
  case h_1 | h_2 => exact quotedAhead_withReturns (by decide) hr hc
  case h_3 =>
    simp only [nameStartsAt_withReturns, digitAhead_withReturns, nameAhead_withReturns hr,
      Text.head?_withReturns (show '-' ≠ '\r' by decide) (show '-' ≠ '\n' by decide)]
    split
    · rw [Text.stretch_cons hc]
      rfl
    · split
      · rw [Text.stretch_cons hc]
        rfl
      · rw [hone]
        rfl
  case h_4 =>
    simp only [nameStartsAt_withReturns, nameAhead_withReturns hr]
    split
    · rw [Text.stretch_cons hc]
      rfl
    · rw [hone]
      rfl
  case h_5 =>
    simp only [Text.head?_withReturns (show '*' ≠ '\r' by decide) (show '*' ≠ '\n' by decide)]
    split
    next hstar =>
      obtain ⟨u, rfl⟩ := List.head?_eq_some_iff.mp hstar
      have hopen : ∀ n, stretch ('/' :: '*' :: u) (2 + n) = 2 + stretch u n := by
        intro n
        rw [Nat.add_assoc 1 1, Text.stretch_cons hc, Text.stretch_cons (by decide),
          Nat.add_assoc 1 1]
      rw [Text.withReturns_cons (by decide), List.drop_succ_cons, List.drop_zero,
        List.drop_succ_cons, List.drop_zero, commentLength_withReturns, hopen]
      rfl
    next =>
      rw [hone]
      rfl
  case h_6 =>
    rw [isPrefixOf_withReturns (by decide)]
    split
    next hopen =>
      obtain ⟨u, rfl⟩ := List.isPrefixOf_iff_prefix.mp hopen
      rfl
    next =>
      rw [hone]
      rfl
  case h_7 | h_8 | h_9 | h_10 | h_11 => exact matchAhead_withReturns hc rfl t
  all_goals exact congrArg (Prod.mk _) hone.symm

theorem ahead_of_isSpace {c : Char} (h : isSpace c = true) :
    Token.ahead c t = (.space, 1 + (t.takeWhile isSpace).length) := by
  rw [Token.ahead, if_pos h]

/-- **The token at the front is the same**, and it takes the stretch of what it took. -/
theorem ahead_withReturns {c : Char} (hr : '\r' ∉ c :: t) :
    ∃ d u, withReturns (c :: t) = d :: u ∧
      Token.ahead d u =
        ((Token.ahead c t).1.withReturns, stretch (c :: t) (Token.ahead c t).2) := by
  have hspaces : isSpace '\r' = isSpace '\n' := rfl
  by_cases hn : c = '\n'
  · -- the line feed and its return are white space together
    subst hn
    refine ⟨'\r', '\n' :: withReturns t, rfl, ?_⟩
    have hfront : ('\n' :: withReturns t).takeWhile isSpace =
        '\n' :: (withReturns t).takeWhile isSpace := List.takeWhile_cons_of_pos rfl
    rw [ahead_of_isSpace rfl, ahead_of_isSpace rfl, hfront, List.length_cons,
      Text.length_takeWhile_withReturns hspaces, Text.stretch_newline, Nat.add_comm _ 1,
      ← Nat.add_assoc]
    rfl
  refine ⟨c, withReturns t, Text.withReturns_cons hn t, ?_⟩
  have ht : '\r' ∉ t := List.not_mem_of_not_mem_cons hr
  have hwhole : withReturns (c :: t) = c :: withReturns t := Text.withReturns_cons hn t
  have hnumeral : numeralStartsAt (c :: withReturns t) = numeralStartsAt (c :: t) := by
    rw [← hwhole, numeralStartsAt_withReturns]
  have hname : nameStartsAt (c :: withReturns t) = nameStartsAt (c :: t) := by
    rw [← hwhole, nameStartsAt_withReturns]
  have hclose : "-->".toList.isPrefixOf (c :: withReturns t) =
      "-->".toList.isPrefixOf (c :: t) := by
    rw [← hwhole, isPrefixOf_withReturns (by decide)]
  unfold Token.ahead
  rw [hnumeral, hname, hclose, Text.length_takeWhile_withReturns hspaces]
  split
  · rw [Text.stretch_cons hn]
    rfl
  split
  · rw [← hwhole, numericAhead_withReturns hr]
  split
  next hprefix =>
    obtain ⟨u, hu⟩ := List.isPrefixOf_iff_prefix.mp hprefix
    rw [← hu]
    rfl
  split
  · rw [← hwhole, identLikeAhead_withReturns hr]
  · exact markAhead_withReturns hn ht

end Tokens

/-! ## Lexemes -/

/-- The lexeme in the text with returns. -/
def Lexeme.withReturns (l : Lexeme) : Lexeme :=
  ⟨l.token.withReturns, Text.withReturns l.text, l.start⟩

/-- A place behind a stretch of text is the same with the returns, since a return and a line feed
end one line. -/
theorem past_withReturns {p : Place} {t : Text} (hr : '\r' ∉ t) (hp : p.afterReturn = false) :
    p.past (withReturns t) = p.past t ∧ (p.past t).afterReturn = false := by
  induction t generalizing p with
  | nil => exact ⟨rfl, hp⟩
  | cons c t ih =>
    have ht : '\r' ∉ t := List.not_mem_of_not_mem_cons hr
    by_cases hn : c = '\n'
    · subst hn
      have hnext : p.next '\n' = ⟨p.line + 1, 1, false⟩ := by simp [Place.next, hp]
      have hreturn : (p.next '\r').next '\n' = ⟨p.line + 1, 1, false⟩ := by simp [Place.next]
      rw [Text.withReturns_newline, Place.past_cons, Place.past_cons, Place.past_cons, hreturn,
        hnext]
      exact ih ht rfl
    · have hc : c ≠ '\r' := (List.ne_of_not_mem_cons hr).symm
      have hnext : (p.next c).afterReturn = false := by
        simp only [Place.next, hn, hc, false_and, if_false, false_or]
        split <;> rfl
      rw [Text.withReturns_cons hn, Place.past_cons, Place.past_cons]
      exact ih ht hnext

theorem lexemesFrom_withReturns {p : Place} {t : Text} (hr : '\r' ∉ t)
    (hp : p.afterReturn = false) :
    lexemesFrom p (withReturns t) = (lexemesFrom p t).map Lexeme.withReturns := by
  fun_induction lexemesFrom p t with
  | case1 => rw [Text.withReturns_nil, lexemesFrom]; rfl
  | case2 p c t found taken ih =>
    have htaken : '\r' ∉ taken := fun h => hr (List.mem_of_mem_take h)
    obtain ⟨hplace, hafter⟩ := past_withReturns htaken hp
    obtain ⟨d, u, hdu, hahead⟩ := ahead_withReturns hr
    have ih := ih (notMem_drop hr _) hafter
    rw [hdu, lexemesFrom, hahead]
    simp only [← hdu, Text.take_stretch, Text.drop_stretch, List.map_cons]
    refine congrArg₂ _ rfl ?_
    rw [← ih]
    exact congrArg (lexemesFrom · _) hplace

/-- **The lexemes of the text with returns** are those of the text, at the same places. -/
theorem lexemes_withReturns {t : Text} (hr : '\r' ∉ t) :
    lexemes (withReturns t) = (lexemes t).map Lexeme.withReturns ∧
      endPlace (withReturns t) = endPlace t :=
  ⟨lexemesFrom_withReturns hr rfl, (past_withReturns hr rfl).1⟩

end StyleAudit.Css
