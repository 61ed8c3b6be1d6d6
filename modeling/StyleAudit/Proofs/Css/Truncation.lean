import StyleAudit.Proofs.Css.TruncatedNames

/-!
# Scanning a text that is cut off

A text is cut into tokens from the front, and a token ends where something else begins.  When the
text is cut off behind a token, nothing begins there any more.  It may seem that the token is the
same then, since all its characters are still there; but some tokens are what they are only because
of what follows.  A string is cut off by a line end, and is whole when the text ends instead.  A
backslash in front of a line end is a token of its own, and begins a name when nothing follows it.
A name with a parenthesis behind it is the beginning of an address if no quote follows.  And a name
goes on through an escape that begins where it ends.

These are all.  For each scanner there is one statement, again of one form throughout: if what it
takes of `u ++ d` is no more than `u`, it finds the same in `u`.  Nothing is asked of `d` as long
as the scanner decides by single characters; the conditions that are asked further up are the ones
above, on `d` and on what is left of `u` behind the token.  They meet in the main result,
`Token.ahead_of_append`.  The tokens that cannot stand where the text ends are told by
`Token.endsText`, and `Token.endsText_ahead` says that none of them does.
-/

namespace StyleAudit.Css

/-! ## Comments and strings -/

theorem commentLength_pos {t : Text} (ht : t ≠ []) : 0 < commentLength t := by
  unfold commentLength
  split
  · exact Nat.succ_pos 1
  · omega
  · exact absurd rfl ht

/-- A comment that ends in the text is as long if the text is cut off behind it. -/
theorem commentLength_of_append {u d : Text} (h : commentLength (u ++ d) ≤ u.length) :
    commentLength u = commentLength (u ++ d) := by
  fun_induction commentLength u with
  | case1 t => rfl
  | case2 c t hend ih =>
    have hopen : c = '*' → (t ++ d).head? ≠ some '/' := by
      rintro rfl hhead
      rcases t with _ | ⟨e, t⟩
      · obtain ⟨d, rfl⟩ := List.head?_eq_some_iff.mp hhead
        exact absurd h (by simp [commentLength])
      · obtain rfl : e = '/' := Option.some.inj hhead
        exact hend t rfl rfl
    rw [List.cons_append, commentLength_cons hopen, List.length_cons] at h
    rw [List.cons_append, commentLength_cons hopen, ih (by omega)]
  | case3 =>
    rcases d with _ | ⟨e, d⟩
    · rfl
    · exact absurd h (Nat.not_le_of_lt (commentLength_pos (List.cons_ne_nil e d)))

theorem newlineLength_pos {t : Text} (h : newlineAhead t = true) : 0 < newlineLength t := by
  rcases t with _ | ⟨c, t⟩
  · cases h
  · rw [newlineLength_eq_frontLength, frontLength]
    split
    · exact Nat.succ_pos 1
    · rw [if_pos (show isNewline c = true from h)]
      exact Nat.one_pos

theorem escapeAhead_pos {t : Text} (ht : t ≠ []) : 0 < (escapeAhead t).2 :=
  Nat.pos_of_ne_zero fun h => ht (eq_nil_of_escapeAhead h)

/-- A string that takes no character is cut off, or the text is empty. -/
theorem eq_nil_of_stringAhead {quote : Char} (hq : '\\' ≠ quote) {t : Text}
    (h : (stringAhead quote t).2 = 0) (hwhole : (stringAhead quote t).1.2 = true) : t = [] := by
  rcases t with _ | ⟨c, t⟩
  · rfl
  · by_cases hc : c = '\\'
    · subst hc
      rcases t with _ | ⟨e, t⟩
      · rw [stringAhead, if_neg hq, if_neg (by decide), if_pos rfl] at h
        cases h
      · cases hnew : newlineAhead (e :: t) with
        | true => rw [stringAhead_lineEnd hq hnew] at h; omega
        | false => rw [stringAhead_escape hq (List.cons_ne_nil e t) hnew] at h; omega
    · rw [stringAhead_cons hc] at h hwhole
      split at h
      next => cases h
      next hquote =>
        split at h
        next hnew =>
          rw [if_neg hquote, if_pos hnew] at hwhole
          cases hwhole
        next => omega

/-- A string that ends in the text is the same if the text is cut off behind it, unless the line
end that cuts it off is cut off itself. -/
theorem stringAhead_of_append {quote : Char} (hq : '\\' ≠ quote) {d : Text} :
    ∀ {u : Text}, (stringAhead quote (u ++ d)).2 ≤ u.length →
      ((stringAhead quote (u ++ d)).2 = u.length → (stringAhead quote (u ++ d)).1.2 = true) →
        stringAhead quote u = stringAhead quote (u ++ d)
  | [], h, hend => by
    rw [List.nil_append] at h hend ⊢
    rw [eq_nil_of_stringAhead hq (Nat.le_zero.mp h) (hend (Nat.le_zero.mp h))]
  | c :: u, h, hend => by
    rw [List.cons_append] at h hend ⊢
    by_cases hc : c = '\\'
    · subst hc
      by_cases hne : u ++ d = []
      · rw [hne, (List.append_eq_nil_iff.mp hne).1]
      cases hnew : newlineAhead (u ++ d) with
      | true =>
        rw [stringAhead_lineEnd hq hnew] at h hend ⊢
        rw [List.length_cons] at h hend
        have hpos := newlineLength_pos hnew
        have hu : u ≠ [] := by
          rintro rfl
          rw [List.length_nil] at h
          omega
        have hnew' : newlineAhead u = true := (newlineAhead_append hu d).symm.trans hnew
        have hlen : newlineLength u = newlineLength (u ++ d) := newlineLength_of_append (by omega)
        have hdrop : (u ++ d).drop (newlineLength (u ++ d)) =
            u.drop (newlineLength (u ++ d)) ++ d := List.drop_append_of_le_length (by omega)
        rw [hdrop] at h hend
        have hrest : (u.drop (newlineLength (u ++ d))).length =
            u.length - newlineLength (u ++ d) := List.length_drop
        rw [stringAhead_lineEnd hq hnew', hlen, hdrop,
          stringAhead_of_append (u := u.drop (newlineLength (u ++ d))) hq (by omega)
            fun heq => hend (by omega)]
      | false =>
        rw [stringAhead_escape hq hne hnew] at h hend ⊢
        rw [List.length_cons] at h hend
        have hpos := escapeAhead_pos hne
        have hu : u ≠ [] := by
          rintro rfl
          rw [List.length_nil] at h
          omega
        have hnew' : newlineAhead u = false := (newlineAhead_append hu d).symm.trans hnew
        have hescape : escapeAhead u = escapeAhead (u ++ d) := escapeAhead_of_append (by omega)
        have hdrop : (u ++ d).drop (escapeAhead (u ++ d)).2 =
            u.drop (escapeAhead (u ++ d)).2 ++ d := List.drop_append_of_le_length (by omega)
        rw [hdrop] at h hend
        have hrest : (u.drop (escapeAhead (u ++ d)).2).length =
            u.length - (escapeAhead (u ++ d)).2 := List.length_drop
        rw [stringAhead_escape hq hu hnew', hescape, hdrop,
          stringAhead_of_append (u := u.drop (escapeAhead (u ++ d)).2) hq (by omega)
            fun heq => hend (by omega)]
    · rw [stringAhead_cons hc] at h hend ⊢
      rw [stringAhead_cons hc]
      by_cases hquote : c = quote
      · rw [if_pos hquote, if_pos hquote]
      · rw [if_neg hquote] at h hend ⊢
        rw [if_neg hquote]
        by_cases hnew : isNewline c = true
        · rw [if_pos hnew, if_pos hnew]
        · rw [if_neg hnew, List.length_cons] at h hend
          rw [if_neg hnew, if_neg hnew,
            stringAhead_of_append (u := u) hq (by simp only at h; omega)
              fun heq => hend (by simp only; omega)]
termination_by u => u.length
decreasing_by all_goals simp only [List.length_cons, List.length_drop]; omega

/-! ## Addresses -/

theorem length_takeWhile_pos {c : Char} (hc : isSpace c = true) (t : Text) :
    0 < ((c :: t).takeWhile isSpace).length := by
  rw [List.takeWhile_cons_of_pos hc]
  exact Nat.succ_pos _

theorem urlEndAhead_eq (t : Text) : urlEndAhead t =
    (((t.dropWhile isSpace).head?.map (· == ')')).getD true,
      (t.takeWhile isSpace).length + ((t.dropWhile isSpace).take 1).length) := by
  rw [urlEndAhead, drop_length_takeWhile]
  cases t.dropWhile isSpace <;> rfl

theorem urlAhead_pos {t : Text} (ht : t ≠ []) : 0 < (urlAhead t).2 := by
  rcases t with _ | ⟨c, t⟩
  · exact absurd rfl ht
  · rw [urlAhead]
    split
    next hs =>
      rw [urlEndAhead_eq]
      have hpos := length_takeWhile_pos hs t
      show 0 < _ + _
      omega
    next =>
      split
      · exact Nat.one_pos
      · split
        · exact Nat.one_pos
        · split
          · split
            · exact Nat.one_pos
            · simp only
              omega
          · simp only
            omega

theorem urlEndAhead_of_append {u d : Text} (h : (urlEndAhead (u ++ d)).2 ≤ u.length) :
    urlEndAhead u = urlEndAhead (u ++ d) := by
  by_cases hmem : ∃ x ∈ u, isSpace x = false
  · obtain ⟨x, hx, hs⟩ := hmem
    exact (urlEndAhead_append hx hs d).symm
  · have hall : ∀ x ∈ u, isSpace x = true := fun x hx =>
      eq_true_of_ne_false fun hs => hmem ⟨x, hx, hs⟩
    rw [urlEndAhead_eq, List.takeWhile_append_of_pos hall, List.dropWhile_append_of_pos hall,
      List.length_append] at h
    simp only at h
    have hspaces : d.takeWhile isSpace = [] := List.length_eq_zero_iff.mp (by omega)
    have hone : (d.dropWhile isSpace).take 1 = [] := List.length_eq_zero_iff.mp (by omega)
    have hrest : d.dropWhile isSpace = [] := by
      cases hdrop : d.dropWhile isSpace with
      | nil => rfl
      | cons c r => rw [hdrop] at hone; cases hone
    have hd : d = [] := by
      rw [← List.takeWhile_append_dropWhile (p := isSpace) (l := d), hspaces, hrest]
      rfl
    rw [hd, List.append_nil]

section UrlSteps

variable {c : Char} {t : Text}

theorem urlAhead_of_isSpace (hs : isSpace c = true) : urlAhead (c :: t) =
    (if (urlEndAhead (c :: t)).1 then some [] else none, (urlEndAhead (c :: t)).2) := by
  rw [urlAhead, if_pos hs]

/-- A line end behind a backslash breaks an address. -/
theorem urlAhead_lineEnd (h : newlineAhead t = true) : urlAhead ('\\' :: t) = (none, 1) := by
  rw [urlAhead, if_neg (by decide), if_neg (by decide), if_neg (by decide), if_pos rfl, if_pos h]

/-- An escape in an address. -/
theorem urlAhead_escape (h : newlineAhead t = false) : urlAhead ('\\' :: t) =
    ((urlAhead (t.drop (escapeAhead t).2)).1.map ((escapeAhead t).1 :: ·),
      1 + (escapeAhead t).2 + (urlAhead (t.drop (escapeAhead t).2)).2) := by
  rw [urlAhead, if_neg (by decide), if_neg (by decide), if_neg (by decide), if_pos rfl,
    if_neg (Bool.eq_false_iff.mp h)]

/-- What stands in an address as it is, ends it or breaks it. -/
theorem urlAhead_of_ne_backslash (hs : isSpace c = false) (hc : c ≠ '\\') : urlAhead (c :: t) =
    if c = ')' then (some [], 1)
    else if breaksUrl c then (none, 1)
    else ((urlAhead t).1.map ((if c = '\x00' then replacement else c) :: ·),
      1 + (urlAhead t).2) := by
  rw [urlAhead, if_neg (Bool.eq_false_iff.mp hs), if_neg hc]

end UrlSteps

/-- An address that ends in the text is the same if the text is cut off behind it, unless it breaks
at a line end behind a backslash. -/
theorem urlAhead_of_append {d : Text} : ∀ {u : Text}, (urlAhead (u ++ d)).2 ≤ u.length →
    ((urlAhead (u ++ d)).1 = none → (urlAhead (u ++ d)).2 = u.length → newlineAhead d = false) →
      urlAhead u = urlAhead (u ++ d)
  | [], h, _ => by
    have hd : d = [] := not_not.mp fun hne => absurd (urlAhead_pos hne) (Nat.not_lt.mpr h)
    rw [hd]
    rfl
  | c :: u, h, hend => by
    rw [List.cons_append] at h hend ⊢
    by_cases hc : c = '\\'
    · subst hc
      cases hnew : newlineAhead (u ++ d) with
      | true =>
        rw [urlAhead_lineEnd hnew] at hend ⊢
        have hu : u ≠ [] := by
          rintro rfl
          cases (hend rfl rfl).symm.trans hnew
        rw [urlAhead_lineEnd ((newlineAhead_append hu d).symm.trans hnew)]
      | false =>
        rw [urlAhead_escape hnew, List.length_cons] at h hend
        have hnew' : newlineAhead u = false := by
          rcases u with _ | ⟨e, u⟩
          · rfl
          · exact hnew
        have heq : escapeAhead u = escapeAhead (u ++ d) := escapeAhead_of_append (by omega)
        have hdrop : (u ++ d).drop (escapeAhead (u ++ d)).2 =
            u.drop (escapeAhead (u ++ d)).2 ++ d := List.drop_append_of_le_length (by omega)
        rw [hdrop] at h hend
        have hrest : (u.drop (escapeAhead (u ++ d)).2).length =
            u.length - (escapeAhead (u ++ d)).2 := List.length_drop
        have ih := urlAhead_of_append (u := u.drop (escapeAhead (u ++ d)).2) (by omega)
          fun hnone hlen => hend (by rw [hnone]; rfl) (by simp only; omega)
        rw [urlAhead_escape hnew, urlAhead_escape hnew', heq, hdrop, ih]
    · cases hs : isSpace c with
      | true =>
        rw [urlAhead_of_isSpace hs] at h
        have heq : urlEndAhead (c :: u) = urlEndAhead (c :: (u ++ d)) :=
          urlEndAhead_of_append (u := c :: u) h
        rw [urlAhead_of_isSpace hs, urlAhead_of_isSpace hs, heq]
      | false =>
        rw [urlAhead_of_ne_backslash hs hc] at h hend
        rw [urlAhead_of_ne_backslash hs hc, urlAhead_of_ne_backslash hs hc]
        by_cases hp : c = ')'
        · rw [if_pos hp, if_pos hp]
        by_cases hb : breaksUrl c = true
        · rw [if_neg hp, if_neg hp, if_pos hb, if_pos hb]
        rw [if_neg hp, if_neg hb, List.length_cons] at h hend
        simp only at h hend
        have ih := urlAhead_of_append (u := u) (by omega)
          fun hnone hlen => hend (by rw [hnone]; rfl) (by omega)
        rw [if_neg hp, if_neg hp, if_neg hb, if_neg hb, ih]
termination_by u => u.length
decreasing_by all_goals simp only [List.length_cons, List.length_drop]; omega

theorem brokenUrlLength_pos {c : Char} (hc : c ≠ ')') (t : Text) :
    0 < brokenUrlLength (c :: t) := by
  unfold brokenUrlLength
  split
  next heq => cases heq
  next heq =>
    cases heq
    exact absurd rfl hc
  all_goals omega

/-- A broken address that ends in front of a parenthesis of the text is as long if the text is cut
off behind that. -/
theorem brokenUrlLength_of_append {v d : Text} (h : brokenUrlLength (v ++ d) < v.length) :
    brokenUrlLength v = brokenUrlLength (v ++ d) := by
  fun_induction brokenUrlLength v with
  | case1 => exact absurd h (Nat.not_lt_zero _)
  | case2 t => rw [List.cons_append, brokenUrlLength]
  | case3 t ih | case4 t ih =>
    rw [List.cons_append, List.cons_append, brokenUrlLength, List.length_cons,
      List.length_cons] at h
    rw [List.cons_append, List.cons_append, brokenUrlLength, ih (by omega)]
  | case5 c t hclose hparen hslash ih =>
    rw [List.cons_append] at h ⊢
    rcases t with _ | ⟨e, t⟩
    · exact absurd h (Nat.not_lt.mpr (brokenUrlLength_pos hclose _))
    · have hnext : c = '\\' → (e :: t ++ d).head? ≠ some ')' ∧ (e :: t ++ d).head? ≠ some '\\' := by
        intro hc
        constructor <;> intro hhead <;> obtain rfl := Option.some.inj hhead
        · exact hparen t hc rfl
        · exact hslash t hc rfl
      rw [brokenUrlLength_cons hclose hnext, List.length_cons] at h
      rw [brokenUrlLength_cons hclose hnext, ih (by omega)]

/-- A broken address that ends in front of a parenthesis of the text is the same if the text is cut
off behind that. -/
theorem brokenLength_of_append {u d : Text} (h : brokenLength (u ++ d) < u.length) :
    urlAhead u = urlAhead (u ++ d) ∧ brokenLength u = brokenLength (u ++ d) := by
  have hle : (urlAhead (u ++ d)).2 ≤ brokenLength (u ++ d) := Nat.le_add_right _ _
  have hurl : urlAhead u = urlAhead (u ++ d) := urlAhead_of_append (by omega) fun _ heq => by omega
  refine ⟨hurl, ?_⟩
  have hdrop : (u ++ d).drop (urlAhead (u ++ d)).2 = u.drop (urlAhead (u ++ d)).2 ++ d :=
    List.drop_append_of_le_length (by omega)
  rw [brokenLength, hdrop] at h
  rw [brokenLength, brokenLength, hdrop, hurl, brokenUrlLength_of_append]
  rw [List.length_drop]
  omega

/-- An address takes the white space in front of it and what is read of it. -/
theorem length_add_urlAhead_le {name t : Text} (h : ¬ quoteAhead t) :
    (t.takeWhile isSpace).length + (urlAhead (t.dropWhile isSpace)).2 ≤
      (urlTokenAhead name t).2 := by
  cases hv : (urlAhead (t.dropWhile isSpace)).1 with
  | some value => rw [urlTokenAhead_of_value h hv]
  | none =>
    have hle : (urlAhead (t.dropWhile isSpace)).2 ≤ brokenLength (t.dropWhile isSpace) :=
      Nat.le_add_right _ _
    rw [urlTokenAhead_eq_badUrl h hv]
    simp only
    omega

/-- An address in front of which all of the text is white space ends behind the text. -/
theorem eq_nil_of_urlTokenAhead {name r d : Text} (hall : ∀ x ∈ r, isSpace x = true)
    (hd : ¬ quoteAhead d) (h : (urlTokenAhead name (r ++ d)).2 ≤ r.length) : d = [] := by
  have hdrop : (r ++ d).dropWhile isSpace = d.dropWhile isSpace :=
    List.dropWhile_append_of_pos hall
  have hle : ((r ++ d).takeWhile isSpace).length + (urlAhead ((r ++ d).dropWhile isSpace)).2 ≤
      (urlTokenAhead name (r ++ d)).2 :=
    length_add_urlAhead_le (by rwa [quoteAhead, hdrop])
  rw [hdrop, List.takeWhile_append_of_pos hall, List.length_append] at hle
  have hspaces : d.takeWhile isSpace = [] := List.length_eq_zero_iff.mp (by omega)
  have hrest : d.dropWhile isSpace = [] := by
    by_contra hne
    have hpos := urlAhead_pos hne
    omega
  rw [← List.takeWhile_append_dropWhile (p := isSpace) (l := d), hspaces, hrest]
  rfl

/-- What stands behind `url(` and ends in the text is the same if the text is cut off behind it,
unless all that stands there is white space and a quote follows. -/
theorem urlTokenAhead_of_append {name r d : Text} (hd : ¬ quoteAhead d)
    (h : (urlTokenAhead name (r ++ d)).2 ≤ r.length) :
    urlTokenAhead name r = urlTokenAhead name (r ++ d) := by
  by_cases hnil : d = []
  · rw [hnil, List.append_nil]
  obtain ⟨x, hx, hs⟩ : ∃ x ∈ r, isSpace x = false := by
    by_contra hnone
    refine hnil (eq_nil_of_urlTokenAhead (fun x hx => ?_) hd h)
    exact eq_true_of_ne_false fun hs => hnone ⟨x, hx, hs⟩
  have hdrop : (r ++ d).dropWhile isSpace = r.dropWhile isSpace ++ d :=
    dropWhile_append_of_mem hx hs d
  have htake : (r ++ d).takeWhile isSpace = r.takeWhile isSpace :=
    takeWhile_append_of_mem hx hs d
  have hquote : quoteAhead (r ++ d) ↔ quoteAhead r := by
    have hne : r.dropWhile isSpace ≠ [] := List.ne_nil_of_mem (mem_dropWhile hx hs)
    rw [quoteAhead, hdrop, List.head?_append_of_ne_nil _ hne, quoteAhead]
  have hlen : (r.takeWhile isSpace).length + (r.dropWhile isSpace).length = r.length := by
    rw [← List.length_append, List.takeWhile_append_dropWhile]
  by_cases hq : quoteAhead r
  · rw [urlTokenAhead_of_quote hq, urlTokenAhead_of_quote (hquote.mpr hq)]
  have hq' := mt hquote.mp hq
  generalize hbody : r.dropWhile isSpace = body at hdrop hlen
  cases hv : (urlAhead (body ++ d)).1 with
  | some value =>
    rw [urlTokenAhead_of_value hq' (by rw [hdrop]; exact hv), htake, hdrop] at h
    simp only at h
    have hurl : urlAhead body = urlAhead (body ++ d) :=
      urlAhead_of_append (by omega) fun hnone => by rw [hv] at hnone; cases hnone
    rw [urlTokenAhead_of_value hq' (by rw [hdrop]; exact hv),
      urlTokenAhead_of_value hq (by rw [hbody, hurl]; exact hv), htake, hdrop, hbody, hurl]
  | none =>
    rw [urlTokenAhead_eq_badUrl hq' (by rw [hdrop]; exact hv), htake, hdrop] at h
    simp only at h
    -- something is cut off, so the address ends at a parenthesis, and that is there
    have hin : brokenLength (body ++ d) < body.length := by
      by_contra hout
      have hall : (body ++ d).drop (brokenLength (body ++ d)) = [] := by
        by_contra hne
        have hone : (((body ++ d).drop (brokenLength (body ++ d))).take 1).length = 1 := by
          rw [List.length_take, Nat.min_eq_left (List.length_pos_iff.mpr hne)]
        omega
      rw [List.drop_eq_nil_iff, List.length_append] at hall
      have hpos := List.length_pos_iff.mpr hnil
      omega
    obtain ⟨hurl, hbroken⟩ := brokenLength_of_append hin
    have htaken : ((body ++ d).drop (brokenLength (body ++ d))).take 1 =
        (body.drop (brokenLength (body ++ d))).take 1 := by
      rw [List.drop_append_of_le_length (by omega), List.take_append_of_le_length]
      rw [List.length_drop]
      omega
    rw [urlTokenAhead_eq_badUrl hq' (by rw [hdrop]; exact hv),
      urlTokenAhead_eq_badUrl hq (by rw [hbody, hurl]; exact hv), htake, hdrop, hbody, hbroken,
      htaken, List.take_append_of_le_length (by omega)]

/-! ## Tokens -/

/-- Whether the token can be the last one of a text.  A string is cut off by a line end and a
backslash is a token in front of one only, and either is there no more when the text ends. -/
def Token.endsText : Token → Bool
  | badString _ => false
  | delim '\\' => false
  | _ => true

theorem nameAhead_le_identLikeAhead (t : Text) : (nameAhead t).2 ≤ (identLikeAhead t).2 := by
  simp only [identLikeAhead]
  split
  · split
    · simp only
      omega
    · exact Nat.le_succ _
  · exact Nat.le_refl _

theorem identLikeAhead_of_append {u d : Text} (hd : ¬ quoteAhead d)
    (h : (identLikeAhead (u ++ d)).2 ≤ u.length)
    (hback : u.drop (identLikeAhead (u ++ d)).2 = ['\\'] → newlineAhead d = false) :
    identLikeAhead u = identLikeAhead (u ++ d) := by
  have hle := (nameAhead_le_identLikeAhead (u ++ d)).trans h
  have hdrop : (u ++ d).drop (nameAhead (u ++ d)).2 = u.drop (nameAhead (u ++ d)).2 ++ d :=
    List.drop_append_of_le_length hle
  have hlen : (u.drop (nameAhead (u ++ d)).2).length = u.length - (nameAhead (u ++ d)).2 :=
    List.length_drop
  by_cases hparen : (u.drop (nameAhead (u ++ d)).2 ++ d).head? = some '('
  · obtain ⟨rest, hrest⟩ := List.head?_eq_some_iff.mp hparen
    rw [hrest] at hdrop
    have hne : u.drop (nameAhead (u ++ d)).2 ≠ [] := by
      intro hnil
      rw [hnil, List.length_nil] at hlen
      rw [identLikeAhead_of_paren hdrop] at h
      split at h
      · simp only at h
        omega
      · simp only at h
        omega
    obtain ⟨b, rest', hrest'⟩ := List.exists_cons_of_ne_nil hne
    rw [hrest', List.cons_append, List.cons.injEq] at hrest
    obtain ⟨rfl, rfl⟩ := hrest
    have hname : nameAhead u = nameAhead (u ++ d) := by
      refine nameAhead_of_append hle fun hlast => ?_
      rw [hrest'] at hlast
      cases hlast
    rw [identLikeAhead_of_paren hdrop] at h ⊢
    have hparen' : u.drop (nameAhead u).2 = '(' :: rest' := by rw [hname]; exact hrest'
    rw [identLikeAhead_of_paren hparen', hname]
    split
    next hurl =>
      rw [if_pos hurl] at h
      rw [hrest', List.length_cons] at hlen
      rw [urlTokenAhead_of_append hd (by simp only at h; omega)]
    next => rfl
  · have hnone : (u.drop (nameAhead (u ++ d)).2).head? ≠ some '(' := by
      intro hhead
      obtain ⟨rest, hrest⟩ := List.head?_eq_some_iff.mp hhead
      rw [hrest] at hparen
      exact hparen rfl
    have hwhole := identLikeAhead_of_no_paren (t := u ++ d) (by rwa [hdrop])
    rw [hwhole] at hback
    have hname := nameAhead_of_append hle hback
    rw [hwhole, identLikeAhead_of_no_paren (by rwa [hname]), hname]

theorem quotedAhead_of_append {quote : Char} (hq : '\\' ≠ quote) {u d : Text}
    (h : (quotedAhead quote (u ++ d)).2 ≤ u.length + 1)
    (hend : (quotedAhead quote (u ++ d)).2 = u.length + 1 →
      (quotedAhead quote (u ++ d)).1.endsText = true) :
    quotedAhead quote u = quotedAhead quote (u ++ d) := by
  simp only [quotedAhead] at h hend ⊢
  have hstring : stringAhead quote u = stringAhead quote (u ++ d) := by
    refine stringAhead_of_append hq (by omega) fun heq => ?_
    have hwhole := hend (by omega)
    by_contra hnot
    rw [if_neg hnot] at hwhole
    cases hwhole
  rw [hstring]

theorem matchAhead_of_append {c : Char} {token : Token} {u d : Text}
    (h : (matchAhead c token (u ++ d)).2 ≤ u.length + 1) :
    matchAhead c token u = matchAhead c token (u ++ d) := by
  rcases u with _ | ⟨e, u⟩
  · rw [List.nil_append] at h ⊢
    unfold matchAhead at h ⊢
    split at h
    next => exact absurd h (Nat.not_succ_le_self 1)
    next hnot => rw [if_neg hnot, if_neg (by simp)]
  · rfl

/-- A word at the front of a text that ends in the text. -/
theorem isPrefixOf_of_append {w u d : Text} (h : w.length ≤ u.length) :
    w.isPrefixOf u = w.isPrefixOf (u ++ d) := by
  rw [Bool.eq_iff_iff, List.isPrefixOf_iff_prefix, List.isPrefixOf_iff_prefix]
  exact ⟨fun hw => hw.trans (List.prefix_append u d),
    fun hw => List.prefix_of_prefix_length_le hw (List.prefix_append u d) h⟩

theorem digitAhead_or_hyphen_of_append {u d : Text} (hu : u ≠ []) :
    (digitAhead (u ++ d) = true ∨ (u ++ d).head? = some '-') =
      (digitAhead u = true ∨ u.head? = some '-') := by
  obtain ⟨c, u, rfl⟩ := List.exists_cons_of_ne_nil hu
  rfl

/-- A digit or a hyphen in front is part of a name. -/
theorem nameAhead_pos_of_digitAhead {t : Text} (h : digitAhead t = true ∨ t.head? = some '-') :
    0 < (nameAhead t).2 := by
  rcases t with _ | ⟨c, t⟩
  · exact absurd h (by decide)
  · have hname : isNameChar c = true := by
      rcases h with h | h
      · have hdigit : c.isDigit = true := h
        simp only [isNameChar, Char.isAlphanum, hdigit, Bool.or_true, Bool.true_or]
      · obtain rfl : c = '-' := Option.some.inj h
        rfl
    have hc : c ≠ '\\' := by
      rintro rfl
      exact absurd hname (by decide)
    rw [nameAhead_of_ne_backslash hc, if_pos (.inr hname)]
    simp only
    omega

section Signs

variable {u d : Text}

/-- A name behind a sign. -/
theorem nameAhead_behind_sign (hd : d.head? ≠ some '\\') (hstart : nameStartsAt (u ++ d) = true)
    (h : 1 + (nameAhead (u ++ d)).2 ≤ u.length + 1)
    (hback : u.drop (1 + (nameAhead (u ++ d)).2 - 1) = ['\\'] → newlineAhead d = false) :
    nameAhead u = nameAhead (u ++ d) ∧ nameStartsAt u = true := by
  rw [Nat.add_sub_cancel_left] at hback
  exact ⟨nameAhead_of_append (by omega) hback, nameStartsAt_of_append hd (by omega) hstart⟩

theorem markAhead_at_of_append (hd : d.head? ≠ some '\\')
    (h : (markAhead '@' (u ++ d)).2 ≤ u.length + 1)
    (hback : u.drop ((markAhead '@' (u ++ d)).2 - 1) = ['\\'] → newlineAhead d = false) :
    markAhead '@' u = markAhead '@' (u ++ d) := by
  simp only [markAhead] at h hback ⊢
  by_cases hstart : nameStartsAt (u ++ d) = true
  · rw [if_pos hstart] at h hback
    obtain ⟨heq, hstart'⟩ := nameAhead_behind_sign hd hstart h hback
    rw [if_pos hstart, if_pos hstart', heq]
  · rw [if_neg hstart] at hback
    have hnone : ¬ nameStartsAt u = true := mt (nameStartsAt_append_of hback) hstart
    rw [if_neg hstart, if_neg hnone]

theorem markAhead_hash_of_append (hd : d.head? ≠ some '\\')
    (h : (markAhead '#' (u ++ d)).2 ≤ u.length + 1)
    (hback : u.drop ((markAhead '#' (u ++ d)).2 - 1) = ['\\'] → newlineAhead d = false) :
    markAhead '#' u = markAhead '#' (u ++ d) := by
  simp only [markAhead] at h hback ⊢
  by_cases hstart : nameStartsAt (u ++ d) = true
  · rw [if_pos hstart] at h hback
    obtain ⟨heq, hstart'⟩ := nameAhead_behind_sign hd hstart h hback
    rw [if_pos hstart, if_pos hstart', heq]
  rw [if_neg hstart] at h hback
  rw [if_neg hstart]
  by_cases hhash : digitAhead (u ++ d) = true ∨ (u ++ d).head? = some '-'
  · rw [if_pos hhash] at h hback
    simp only at h hback
    have hpos := nameAhead_pos_of_digitAhead hhash
    have hu : u ≠ [] := by
      rintro rfl
      rw [List.nil_append] at h hpos
      rw [List.length_nil] at h
      omega
    rw [Nat.add_sub_cancel_left] at hback
    have heq := nameAhead_of_append (u := u) (by omega) hback
    have hhash' := digitAhead_or_hyphen_of_append (d := d) hu ▸ hhash
    have hslash : u ≠ ['\\'] := by
      rintro rfl
      exact absurd hhash' (by decide)
    rw [if_pos hhash, if_neg (mt (nameStartsAt_append_of fun h => absurd h hslash) hstart),
      if_pos hhash', heq]
  · rw [if_neg hhash] at hback
    have hhash' : ¬ (digitAhead u = true ∨ u.head? = some '-') := by
      by_cases hu : u = []
      · rw [hu]
        decide
      · rwa [digitAhead_or_hyphen_of_append hu] at hhash
    have hnone : ¬ nameStartsAt u = true := mt (nameStartsAt_append_of hback) hstart
    rw [if_neg hhash, if_neg hnone, if_neg hhash']

theorem markAhead_slash_of_append (h : (markAhead '/' (u ++ d)).2 ≤ u.length + 1) :
    markAhead '/' u = markAhead '/' (u ++ d) := by
  simp only [markAhead] at h ⊢
  rcases u with _ | ⟨e, u⟩
  · rw [List.nil_append] at h ⊢
    split at h
    next => exact absurd h (by rw [List.length_nil]; omega)
    next hstar => rw [if_neg hstar]; rfl
  · by_cases hstar : (e :: u ++ d).head? = some '*'
    · rw [if_pos hstar] at h
      have hlen : commentLength (u ++ d) ≤ u.length := by
        have hle : 2 + commentLength (u ++ d) ≤ (e :: u).length + 1 := h
        rw [List.length_cons] at hle
        omega
      rw [if_pos hstar, if_pos (show (e :: u).head? = some '*' from hstar)]
      exact congrArg (fun n => (Token.comment, 2 + n)) (commentLength_of_append hlen)
    · rw [if_neg hstar, if_neg (show ¬ (e :: u).head? = some '*' from hstar)]

theorem markAhead_less_of_append (h : (markAhead '<' (u ++ d)).2 ≤ u.length + 1) :
    markAhead '<' u = markAhead '<' (u ++ d) := by
  simp only [markAhead] at h ⊢
  by_cases hopen : "!--".toList.isPrefixOf (u ++ d) = true
  · rw [if_pos hopen] at h
    have hlen : "!--".toList.length ≤ u.length := Nat.le_of_succ_le_succ h
    rw [isPrefixOf_of_append hlen]
  · have hopen' : ¬ "!--".toList.isPrefixOf u = true := by
      rw [List.isPrefixOf_iff_prefix] at hopen ⊢
      exact fun hu => hopen (hu.trans (List.prefix_append u d))
    rw [if_neg hopen, if_neg hopen']

/-- A mark with what it begins, if that ends in the text. -/
theorem markAhead_of_append {c : Char} (hd : d.head? ≠ some '\\')
    (h : (markAhead c (u ++ d)).2 ≤ u.length + 1)
    (hback : u.drop ((markAhead c (u ++ d)).2 - 1) = ['\\'] → newlineAhead d = false)
    (hend : (markAhead c (u ++ d)).2 = u.length + 1 →
      (markAhead c (u ++ d)).1.endsText = true) :
    markAhead c u = markAhead c (u ++ d) := by
  unfold markAhead at h hback hend ⊢
  split
  case h_1 | h_2 => exact quotedAhead_of_append (by decide) h hend
  case h_3 => exact markAhead_hash_of_append hd h hback
  case h_4 => exact markAhead_at_of_append hd h hback
  case h_5 => exact markAhead_slash_of_append h
  case h_6 => exact markAhead_less_of_append h
  case h_7 | h_8 | h_9 | h_10 | h_11 => exact matchAhead_of_append h
  all_goals rfl

end Signs

/-- **The token at the front is the same if the text is cut off behind it**, or behind something
that follows it.  What is cut off must not begin with a backslash nor, but for white space, with a
quote; a backslash that is left must not be followed by a line end there; and with nothing left
behind the token, it must be one that can end a text. -/
theorem Token.ahead_of_append {c : Char} {u d : Text} (hd : d.head? ≠ some '\\')
    (hquote : ¬ quoteAhead d) (h : (Token.ahead c (u ++ d)).2 ≤ u.length + 1)
    (hback : (c :: u).drop (Token.ahead c (u ++ d)).2 = ['\\'] → newlineAhead d = false)
    (hend : (Token.ahead c (u ++ d)).2 = u.length + 1 →
      (Token.ahead c (u ++ d)).1.endsText = true) :
    Token.ahead c u = Token.ahead c (u ++ d) := by
  have hpos := Token.ahead_pos c (u ++ d)
  have hlen : (c :: u).length = u.length + 1 := List.length_cons
  unfold Token.ahead at h hback hend hpos ⊢
  by_cases hs : isSpace c = true
  · rw [if_pos hs] at h
    have hspaces : u.takeWhile isSpace = (u ++ d).takeWhile isSpace :=
      takeWhile_of_append (by simp only at h; omega)
    rw [if_pos hs, if_pos hs, hspaces]
  rw [if_neg hs] at h hback hend hpos
  rw [if_neg hs, if_neg hs]
  by_cases hnumeral : numeralStartsAt (c :: (u ++ d)) = true
  · rw [if_pos hnumeral] at h hback hend
    have hle : (Numeral.scan (c :: u ++ d)).2 ≤ (c :: u).length := by
      refine (scan_le_numericAhead _).trans ?_
      rw [hlen]
      exact h
    rw [if_pos hnumeral, if_pos (numeralStartsAt_of_append hle hnumeral)]
    exact numericAhead_of_append (t := c :: u) hd (by rw [hlen]; exact h) hback
  rw [if_neg hnumeral] at h hback hend hpos
  rw [if_neg hnumeral, if_neg (mt numeralStartsAt_append_of hnumeral)]
  by_cases hclose : "-->".toList.isPrefixOf (c :: (u ++ d)) = true
  · rw [if_pos hclose] at h
    have hclose' : "-->".toList.isPrefixOf (c :: u) = true := by
      rw [isPrefixOf_of_append (d := d) (by rw [hlen]; exact h)]
      exact hclose
    rw [if_pos hclose, if_pos hclose']
  have hclose' : ¬ "-->".toList.isPrefixOf (c :: u) = true := by
    rw [List.isPrefixOf_iff_prefix] at hclose ⊢
    exact fun hu => hclose (hu.trans (List.prefix_append (c :: u) d))
  rw [if_neg hclose] at h hback hend hpos
  rw [if_neg hclose, if_neg hclose']
  by_cases hname : nameStartsAt (c :: (u ++ d)) = true
  · rw [if_pos hname] at h hback
    have hle : (nameAhead (c :: u ++ d)).2 ≤ (c :: u).length := by
      refine (nameAhead_le_identLikeAhead _).trans ?_
      rw [hlen]
      exact h
    rw [if_pos hname, if_pos (nameStartsAt_of_append hd hle hname)]
    exact identLikeAhead_of_append (u := c :: u) hquote (by rw [hlen]; exact h) hback
  · rw [if_neg hname] at h hback hend hpos
    have hstart : ¬ nameStartsAt (c :: u) = true := by
      refine mt (nameStartsAt_append_of fun hu => ?_) hname
      -- a lone backslash does not end the text
      obtain ⟨rfl, rfl⟩ := List.cons.inj hu
      exact absurd (hend rfl) Bool.false_ne_true
    rw [if_neg hname, if_neg hstart]
    refine markAhead_of_append hd h (fun hu => hback ?_) hend
    obtain ⟨k, hk⟩ : ∃ k, (markAhead c (u ++ d)).2 = k + 1 :=
      Nat.exists_eq_succ_of_ne_zero (Nat.ne_of_gt hpos)
    rw [hk, Nat.add_sub_cancel] at hu
    rw [hk, List.drop_succ_cons, hu]

/-! ## The last token of a text -/

/-- A string that is cut off does not take the line end that cuts it off. -/
theorem stringAhead_lt {quote : Char} {t : Text} (h : (stringAhead quote t).1.2 = false) :
    (stringAhead quote t).2 < t.length := by
  fun_induction stringAhead quote t with
  | case1 | case2 | case4 => cases h
  | case3 => exact Nat.succ_pos _
  | case5 d u hnew n r hq _ ih =>
    have hlt := ih h
    rw [List.length_drop] at hlt
    rw [List.length_cons]
    simp only [r]
    omega
  | case6 d u hnew e r hq _ ih =>
    have hlt := ih h
    rw [List.length_drop] at hlt
    rw [List.length_cons]
    simp only [r]
    omega
  | case7 c t hc hnew hb r ih =>
    have hlt := ih h
    rw [List.length_cons]
    simp only [r]
    omega

theorem Token.endsText_delim {c : Char} (hc : c ≠ '\\') : (Token.delim c).endsText = true := by
  unfold Token.endsText
  split
  next heq => cases heq
  next heq =>
    cases heq
    exact absurd rfl hc
  next => rfl

theorem endsText_quotedAhead {quote : Char} {t : Text}
    (h : (quotedAhead quote t).2 = t.length + 1) : (quotedAhead quote t).1.endsText = true := by
  simp only [quotedAhead] at h ⊢
  cases hwhole : (stringAhead quote t).1.2 with
  | true => rfl
  | false =>
    have hlt := stringAhead_lt hwhole
    omega

theorem endsText_matchAhead {c : Char} (hc : c ≠ '\\') {token : Token}
    (htoken : token.endsText = true) (t : Text) : (matchAhead c token t).1.endsText = true := by
  unfold matchAhead
  split
  · exact htoken
  · exact Token.endsText_delim hc

theorem endsText_markAhead {c : Char} (hc : c ≠ '\\') {t : Text}
    (h : (markAhead c t).2 = t.length + 1) : (markAhead c t).1.endsText = true := by
  unfold markAhead at h ⊢
  split
  case h_1 | h_2 => exact endsText_quotedAhead h
  case h_3 | h_4 | h_5 | h_6 =>
    repeat' split
    all_goals rfl
  case h_7 | h_8 | h_9 | h_10 | h_11 => exact endsText_matchAhead (by decide) rfl t
  case h_21 => exact Token.endsText_delim hc
  all_goals rfl

/-- **The last token of a text can end a text.** -/
theorem Token.endsText_ahead {c : Char} {t : Text} (h : (Token.ahead c t).2 = t.length + 1) :
    (Token.ahead c t).1.endsText = true := by
  unfold Token.ahead at h ⊢
  split
  next => rfl
  next hs =>
    rw [if_neg hs] at h
    split
    next =>
      simp only [numericAhead]
      repeat' split
      all_goals rfl
    next hnumeral =>
      rw [if_neg hnumeral] at h
      split
      next => rfl
      next hclose =>
        rw [if_neg hclose] at h
        split
        next =>
          simp only [identLikeAhead, urlTokenAhead]
          repeat' split
          all_goals rfl
        next hname =>
          rw [if_neg hname] at h
          refine endsText_markAhead ?_ h
          rintro rfl
          -- the backslash would be all there is, and then it begins a name
          obtain rfl : t = [] := List.length_eq_zero_iff.mp (Nat.succ.inj h).symm
          exact hname rfl

end StyleAudit.Css
