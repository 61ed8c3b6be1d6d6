import Mathlib.Data.List.Basic
import StyleAudit.Proofs.Css.Boundary

/-!
# Tokens that have found their end

A token is *whole* (`Token.isWhole`) when it ends where its own grammar ends it: a comment
at its `*/`, a string at its quote, an address at its parenthesis.  All other tokens are
whole but for a string or an address that is broken.

A whole token is the same whatever text follows it, as long as what follows stands apart
(`Token.ahead_congr`).  Two kinds of tokens need a little more.  White space goes on if white
space follows, and a name with an opening parenthesis is an address or a function according
to what follows the white space behind it; so behind either of them something else than
white space has to stand before the text that is exchanged (`Token.awaitsNext`).

The last character of a whole token is white space only if the token is blank or opens a
bracket (`isSpace_getLast?_eq_false`); the reason is that no other token would have taken
a boundary.
-/

namespace StyleAudit.Css

/-! ## Whole tokens -/

/-- Whether the token, read from the text `w`, has found its own end: a comment its `*/`, a
string its quote, an address its parenthesis. -/
def Token.isWhole (token : Token) (w : Text) : Bool :=
  match token with
  | .comment => decide (4 ≤ w.length) && "*/".toList.isSuffixOf w
  | .string _ => decide (2 ≤ w.length) && w.getLast? == w.head?
  | .url _ => w.getLast? == some ')'
  | .badString _ | .badUrl _ => false
  | _ => true

/-- Whether the end of the token shows only when something other than white space follows:
white space itself, and a name with its parenthesis, which might be an address. -/
def Token.awaitsNext : Token → Bool
  | .space | .function _ => true
  | _ => false

/-! ## Addresses -/

theorem dropWhile_append_of_mem {p : Char → Bool} {x : Char} {u : Text} (hx : x ∈ u)
    (hp : p x = false) (d : Text) : (u ++ d).dropWhile p = u.dropWhile p ++ d := by
  rw [List.dropWhile_append, if_neg]
  intro h
  have hmem := mem_dropWhile hx hp
  rw [List.isEmpty_iff.mp h] at hmem
  cases hmem

/-- Whether an address behind `url(` is in quotes. -/
def quoteAhead (t : Text) : Prop :=
  (t.dropWhile isSpace).head? = some '"' ∨ (t.dropWhile isSpace).head? = some '\''

theorem urlTokenAhead_of_quote {name t : Text} (h : quoteAhead t) :
    urlTokenAhead name t = (.function name, 0) := by
  simp only [urlTokenAhead, drop_length_takeWhile]
  exact if_pos h

theorem urlTokenAhead_of_value {name t value : Text} (h : ¬ quoteAhead t)
    (hv : (urlAhead (t.dropWhile isSpace)).1 = some value) :
    urlTokenAhead name t =
      (.url value, (t.takeWhile isSpace).length + (urlAhead (t.dropWhile isSpace)).2) := by
  unfold quoteAhead at h
  simp only [urlTokenAhead, drop_length_takeWhile]
  rw [if_neg h, hv]

theorem urlTokenAhead_of_broken {name t : Text} (h : ¬ quoteAhead t)
    (hv : (urlAhead (t.dropWhile isSpace)).1 = none) :
    ∃ contents, (urlTokenAhead name t).1 = .badUrl contents := by
  unfold quoteAhead at h
  simp only [urlTokenAhead, drop_length_takeWhile]
  rw [if_neg h, hv]
  exact ⟨_, rfl⟩

/-- What stands behind `url(` and does not break is the same before another text, if its end
is there. -/
theorem urlTokenAhead_congr {name rest y d : Text} {token : Token} {k : Nat}
    (h : urlTokenAhead name (rest ++ y) = (token, k)) (hb : '\\' ∉ rest)
    (hfun : token = .function name → k = 0 → ∃ x ∈ rest, isSpace x = false)
    (hurl : ∀ value, token = .url value → ')' ∈ rest)
    (hbad : ∀ contents, token ≠ .badUrl contents) :
    urlTokenAhead name (rest ++ d) = (token, k) := by
  have hquote : ∀ {x}, x ∈ rest → isSpace x = false →
      ∀ e, quoteAhead (rest ++ e) ↔ quoteAhead rest := by
    intro x hx hs e
    have hne : rest.dropWhile isSpace ≠ [] := List.ne_nil_of_mem (mem_dropWhile hx hs)
    rw [quoteAhead, dropWhile_append_of_mem hx hs, List.head?_append_of_ne_nil _ hne, quoteAhead]
  by_cases hq : quoteAhead (rest ++ y)
  · rw [urlTokenAhead_of_quote hq] at h
    cases h
    obtain ⟨x, hx, hs⟩ := hfun rfl rfl
    exact urlTokenAhead_of_quote ((hquote hx hs d).mpr ((hquote hx hs y).mp hq))
  · cases hv : (urlAhead ((rest ++ y).dropWhile isSpace)).1 with
    | none =>
      obtain ⟨contents, hc⟩ := @urlTokenAhead_of_broken name _ hq hv
      rw [h] at hc
      exact absurd hc (hbad contents)
    | some value =>
      rw [urlTokenAhead_of_value hq hv] at h
      cases h
      have hp : ')' ∈ rest := hurl value rfl
      have hs : isSpace ')' = false := by decide
      have hb' : '\\' ∉ rest.dropWhile isSpace := fun h =>
        hb ((List.dropWhile_suffix isSpace).subset h)
      have hend : ∀ e, urlAhead ((rest ++ e).dropWhile isSpace) =
          urlAhead (rest.dropWhile isSpace) := by
        intro e
        rw [dropWhile_append_of_mem hp hs, urlAhead_append hb' (mem_dropWhile hp hs)]
      rw [@urlTokenAhead_of_value name (rest ++ d) value, hend, hend, takeWhile_append_of_mem hp hs,
        takeWhile_append_of_mem hp hs]
      · rwa [hquote hp hs, ← hquote hp hs y]
      · rwa [hend, ← hend y]

/-! ## Names, strings and comments -/

section Congr

variable {y d : Text} (hy : StandsApart y) (hd : StandsApart d)

/-- The last character of an address in parentheses stands behind the opening one. -/
theorem paren_mem_of_getLast? {a w r rest : Text} (hsplit : w ++ r = a ++ '(' :: rest)
    (hlen : a.length + 1 ≤ w.length) (hlast : w.getLast? = some ')') : ')' ∈ rest := by
  obtain ⟨b, rfl⟩ : ∃ b, w = (a ++ ['(']) ++ b := by
    have hpre : a ++ ['('] <+: w := by
      have hfront : a ++ ['('] <+: w ++ r := by
        rw [hsplit]
        exact ⟨rest, by simp⟩
      exact List.prefix_of_prefix_length_le hfront (List.prefix_append w r) (by simpa using hlen)
    obtain ⟨b, hb⟩ := hpre
    exact ⟨b, hb.symm⟩
  have hrest : rest = b ++ r := by
    rw [List.append_assoc, List.append_assoc] at hsplit
    exact (List.cons.inj (List.append_cancel_left hsplit)).2.symm
  rw [List.getLast?_append] at hlast
  cases hb : b.getLast? with
  | none =>
    rw [hb, List.getLast?_concat] at hlast
    cases hlast
  | some x =>
    rw [hb] at hlast
    cases hlast
    rw [hrest]
    exact List.mem_append_left _ (List.mem_of_getLast? hb)

include hy hd

theorem identLikeAhead_congr {w r : Text} {token : Token} (hb : '\\' ∉ w ++ r)
    (h : identLikeAhead (w ++ r ++ y) = (token, w.length)) (hrun : token.runsOn = true)
    (hw : token.isWhole w = true)
    (hr : token.awaitsNext = true → ∃ x ∈ r, isSpace x = false) :
    identLikeAhead (w ++ r ++ d) = (token, w.length) := by
  have hname : ∀ e, StandsApart e → nameAhead (w ++ r ++ e) = nameAhead (w ++ r) :=
    fun e he => nameAhead_append he hb
  have hdrop : ∀ e, StandsApart e → (w ++ r ++ e).drop (nameAhead (w ++ r ++ e)).2 =
      (w ++ r).drop (nameAhead (w ++ r)).2 ++ e := by
    intro e he
    rw [hname e he, List.drop_append_of_le_length (nameAhead_le _)]
  have hparen : ((w ++ r).drop (nameAhead (w ++ r)).2).head? = some '(' := by
    by_contra hne
    rw [identLikeAhead_of_no_paren
      (by rwa [hdrop y hy, Ne, head?_append_iff hy (by decide)])] at h
    rw [← (Prod.mk.inj h).1] at hrun
    cases hrun
  obtain ⟨rest, hrest⟩ := List.head?_eq_some_iff.mp hparen
  have hdrop' : ∀ e, StandsApart e → (w ++ r ++ e).drop (nameAhead (w ++ r ++ e)).2 =
      '(' :: (rest ++ e) := by
    intro e he
    rw [hdrop e he, hrest]
    rfl
  have hsplit : w ++ r = (w ++ r).take (nameAhead (w ++ r)).2 ++ '(' :: rest := by
    rw [← hrest, List.take_append_drop]
  have htake := List.length_take_of_le (nameAhead_le (w ++ r))
  rw [identLikeAhead_of_paren (hdrop' y hy), hname y hy] at h
  rw [identLikeAhead_of_paren (hdrop' d hd), hname d hd]
  generalize (nameAhead (w ++ r)).1 = name at h ⊢
  generalize (nameAhead (w ++ r)).2 = n at h hsplit htake ⊢
  by_cases hurl : name.sameName "url".toList = true
  · rw [if_pos hurl] at h ⊢
    obtain ⟨htoken, hlen⟩ := Prod.mk.inj h
    have hcongr : urlTokenAhead name (rest ++ d) =
        (token, (urlTokenAhead name (rest ++ y)).2) := by
      refine urlTokenAhead_congr (y := y) (Prod.ext htoken rfl) ?_ ?_ ?_ ?_
      · intro hmem
        rw [hsplit] at hb
        exact hb (List.mem_append_right _ (List.mem_cons_of_mem _ hmem))
      · intro hfun hk
        obtain ⟨x, hx, hs⟩ := hr (by rw [hfun]; rfl)
        -- the name and its parenthesis are all of the token
        have hall : w = (w ++ r).take n ++ ['('] ∧ r = rest := by
          refine List.append_inj (by rw [List.append_assoc]; exact hsplit) ?_
          rw [List.length_append, htake, ← hlen, hk]
          rfl
        exact ⟨x, hall.2 ▸ hx, hs⟩
      · intro value hval
        rw [hval] at hw
        exact paren_mem_of_getLast? hsplit (by omega) (by simpa [Token.isWhole] using hw)
      · intro contents hbad
        rw [hbad] at hw
        cases hw
    rw [hcongr, hlen]
  · rw [if_neg hurl] at h ⊢
    exact h

omit hy hd in
/-- A whole string, behind its opening quote. -/
theorem quotedAhead_congr {quote : Char} {v r : Text} {token : Token} (hb : '\\' ∉ v ++ r)
    (h : quotedAhead quote (v ++ r ++ y) = (token, v.length + 1))
    (hw : token.isWhole (quote :: v) = true) :
    quotedAhead quote (v ++ r ++ d) = (token, v.length + 1) := by
  have hq : quote ∈ v := by
    simp only [quotedAhead] at h
    split at h
    · rw [← (Prod.mk.inj h).1] at hw
      simp only [Token.isWhole, Bool.and_eq_true, decide_eq_true_eq, List.head?_cons,
        beq_iff_eq] at hw
      cases v with
      | nil => simp at hw
      | cons x v =>
        rw [List.getLast?_cons_cons] at hw
        exact List.mem_of_getLast? hw.2
    · rw [← (Prod.mk.inj h).1] at hw
      cases hw
  have hmem : quote ∈ v ++ r := List.mem_append_left _ hq
  rw [quotedAhead, stringAhead_append hb hmem] at h ⊢
  exact h

omit hy hd in
/-- The marks that run on are the quotes and the beginning of a comment. -/
theorem runsOn_markAhead {c : Char} {t : Text} (h : (markAhead c t).1.runsOn = true) :
    c = '"' ∨ c = '\'' ∨ (c = '/' ∧ t.head? = some '*') := by
  have hmatch : ∀ c token, (matchAhead c token t).1.runsOn = true → token.runsOn = true := by
    intro c token h
    unfold matchAhead at h
    split at h
    · exact h
    · cases h
  unfold markAhead at h
  split at h
  case h_1 => exact .inl rfl
  case h_2 => exact .inr (.inl rfl)
  case h_3 | h_4 | h_6 =>
    repeat' split at h
    all_goals cases h
  case h_5 =>
    split at h
    next hstar => exact .inr (.inr ⟨rfl, hstar⟩)
    next => cases h
  case h_7 | h_8 | h_9 | h_10 | h_11 => cases hmatch _ _ h
  all_goals cases h

omit hd in
theorem markAhead_congr {c : Char} {v r : Text} {token : Token} (hb : '\\' ∉ v ++ r)
    (h : markAhead c (v ++ r ++ y) = (token, v.length + 1)) (hrun : token.runsOn = true)
    (hw : token.isWhole (c :: v) = true) :
    markAhead c (v ++ r ++ d) = (token, v.length + 1) := by
  rcases runsOn_markAhead (by rw [h]; exact hrun) with rfl | rfl | ⟨rfl, hstar⟩
  · exact quotedAhead_congr hb h hw
  · exact quotedAhead_congr hb h hw
  · rw [head?_append_iff hy (by decide)] at hstar
    have hstep : ∀ e, markAhead '/' (v ++ r ++ e) =
        if (v ++ r ++ e).head? = some '*' then
          (.comment, 2 + commentLength ((v ++ r ++ e).drop 1))
        else (.delim '/', 1) := fun _ => rfl
    have hhead : ∀ e, (v ++ r ++ e).head? = some '*' := by
      intro e
      rw [List.head?_append, hstar]
      rfl
    rw [hstep, if_pos (hhead y)] at h
    rw [hstep, if_pos (hhead d)]
    obtain ⟨rfl, hlen⟩ := Prod.mk.inj h
    -- the end of the comment lies in `v`, behind the asterisk that begins the comment
    simp only [Token.isWhole, Bool.and_eq_true, decide_eq_true_eq, List.length_cons,
      List.isSuffixOf_iff_suffix] at hw
    obtain ⟨hfour, hend⟩ := hw
    cases v with
    | nil => simp at hfour
    | cons x v =>
      rw [List.length_cons] at hfour
      have hend' : "*/".toList <:+ v := by
        refine List.suffix_of_suffix_length_le hend ?_ (by simpa using by omega)
        exact (List.suffix_cons x v).trans (List.suffix_cons '/' (x :: v))
      have hin : "*/".toList <:+: v ++ r := hend'.isInfix.trans (List.infix_append [] v r)
      simp only [List.cons_append, List.drop_succ_cons, List.drop_zero,
        commentLength_append hin] at h ⊢
      exact h

/-! ## Tokens -/

/-- **A whole token is the same before another text**, if something other than white space
follows where its end would not show else. -/
theorem Token.ahead_congr {c : Char} {v r : Text} {token : Token} (hb : '\\' ∉ c :: (v ++ r))
    (h : Token.ahead c (v ++ r ++ y) = (token, v.length + 1))
    (hw : token.isWhole (c :: v) = true)
    (hr : token.awaitsNext = true → ∃ x ∈ r, isSpace x = false) :
    Token.ahead c (v ++ r ++ d) = (token, v.length + 1) := by
  by_cases hrun : token.runsOn = true
  · rw [Token.ahead_append_eq hy hb] at h
    rw [Token.ahead_append_eq hd hb]
    by_cases hspace : isSpace c = true
    · rw [if_pos hspace] at h ⊢
      obtain ⟨x, hx, hs⟩ := hr (by rw [← (Prod.mk.inj h).1]; rfl)
      have hx' : x ∈ v ++ r := List.mem_append_right _ hx
      rw [takeWhile_append_of_mem hx' hs] at h ⊢
      exact h
    rw [if_neg hspace] at h ⊢
    by_cases hnum : numeralStartsAt (c :: (v ++ r)) = true
    · rw [if_pos hnum] at h ⊢
      exact h
    rw [if_neg hnum] at h ⊢
    by_cases hclose : "-->".toList.isPrefixOf (c :: (v ++ r)) = true
    · rw [if_pos hclose] at h ⊢
      exact h
    rw [if_neg hclose] at h ⊢
    by_cases hname : nameStartsAt (c :: (v ++ r)) = true
    · rw [if_pos hname] at h ⊢
      exact identLikeAhead_congr (w := c :: v) hy hd hb h hrun hw hr
    · rw [if_neg hname] at h ⊢
      exact markAhead_congr hy (fun h => hb (List.mem_cons_of_mem _ h)) h hrun hw
  · have hsame : Token.ahead c (v ++ r) = (token, v.length + 1) := by
      rcases Token.ahead_append hy hb with heq | ⟨hy', -⟩
      · rw [← heq, h]
      · rw [h] at hy'
        exact absurd hy' hrun
    rcases Token.ahead_append hd hb with heq | ⟨-, hd'⟩
    · rw [heq, hsame]
    · rw [hsame] at hd'
      exact absurd hd' hrun

omit hy hd in
/-- A whole token that is not blank and opens nothing does not end in white space. -/
theorem isSpace_getLast?_eq_false {c : Char} {v : Text} {token : Token} (hb : '\\' ∉ c :: v)
    (h : Token.ahead c (v ++ y) = (token, v.length + 1))
    (hw : token.isWhole (c :: v) = true) (hblank : token.isBlank = false)
    (hopen : token.opens? = none) : ∀ x ∈ (c :: v).getLast?, isSpace x = false := by
  intro x hx
  by_contra hs
  rw [Bool.not_eq_false] at hs
  have hc : isSpace c = false := by
    by_contra hc
    rw [Token.ahead, if_pos (by simpa using hc)] at h
    rw [← (Prod.mk.inj h).1] at hblank
    cases hblank
  rcases List.eq_nil_or_concat v with rfl | ⟨u, z, rfl⟩
  · obtain rfl : c = x := Option.some.inj hx
    rw [hs] at hc
    cases hc
  · rw [List.concat_eq_append] at hb h hw hx
    have hlast : (c :: (u ++ [z])).getLast? = some z := by
      rw [← List.cons_append, List.getLast?_concat]
    obtain rfl : z = x := Option.some.inj (hlast.symm.trans hx)
    rw [List.append_assoc] at h
    have hd : StandsApart ([z] ++ y) := standsApart_cons.mpr (mem_boundaries_of_isSpace hs)
    rcases Token.ahead_append hd (c := c) (u := u)
      (fun hmem => hb (by rw [← List.cons_append]; exact List.mem_append_left _ hmem)) with
      heq | ⟨hrun, -⟩
    · have hle := Token.ahead_le c u
      rw [← heq, h, List.length_append, List.length_singleton] at hle
      omega
    · rw [h] at hrun
      cases token with
      | space | comment => cases hblank
      | function => cases hopen
      | badString | badUrl => cases hw
      | string =>
        simp only [Token.isWhole, hlast, List.head?_cons, Bool.and_eq_true, beq_iff_eq,
          Option.some.injEq] at hw
        rw [← hw.2, hs] at hc
        cases hc
      | url =>
        simp only [Token.isWhole, hlast, beq_iff_eq, Option.some.injEq] at hw
        rw [hw] at hs
        cases hs
      | _ => cases hrun

end Congr

end StyleAudit.Css
