import StyleAudit.Proofs.Css.Blanking
import StyleAudit.Proofs.Css.Slices

/-!
# Comments as tokens

The tokenizer finds a comment where a token begins with `/*`, and the comment goes up to the next
`*/` or to the end of the text.  `blankComments` knows nothing of tokens: it finds `/*` wherever
that stands, in a string or in an address as well, and only if `*/` stands somewhere behind it.

So a text can be marked in two ways.  In the marks of `CommentAt` the comments are the matches of a
pattern; in `commentTokens` they are the comments of the tokenizer.  The two are the same exactly if
every comment is closed and no other token holds the `/*` of a match
(`matches_commentTokens_iff`).
-/

namespace StyleAudit.Css

open Text (Coverage Matches)

/-! ## The length of a comment -/

theorem commentLength_of_some {t inside rest : Text}
    (h : splitAtCommentEnd? t = some (inside, rest)) : commentLength t = inside.length + 2 := by
  fun_induction splitAtCommentEnd? t generalizing inside with
  | case1 t =>
    cases h
    rfl
  | case2 c t hend ih =>
    obtain ⟨r, hr, hcons⟩ := Option.map_eq_some_iff.mp h
    cases hcons
    rw [commentLength, ih hr, List.length_cons]
    · omega
    · exact hend
  | case3 => cases h

theorem commentLength_of_none {t : Text} (h : splitAtCommentEnd? t = none) :
    commentLength t = t.length := by
  fun_induction splitAtCommentEnd? t with
  | case1 t => cases h
  | case2 c t hend ih =>
    rw [commentLength, ih (Option.map_eq_none_iff.mp h), List.length_cons, Nat.add_comm]
    exact hend
  | case3 => rfl

/-- A comment begins with a slash and a star. -/
theorem eq_of_ahead_eq_comment {c : Char} {t : Text} (h : (Token.ahead c t).1 = .comment) :
    c = '/' ∧ ∃ u, t = '*' :: u ∧ (Token.ahead c t).2 = 2 + commentLength u := by
  have hedge : Token.isEdge .comment = true := rfl
  rcases ahead_cases c t with ⟨-, hat⟩ | ⟨-, hat | hat | ⟨-, hat⟩ | hat⟩
  · cases hat.symm.trans h
  · rw [← h, hat, isEdge_numericAhead] at hedge
    cases hedge
  · rw [hat] at h
    cases h
  · rw [← h, hat, isEdge_identLikeAhead] at hedge
    cases hedge
  · have hquoted : ∀ quote, (quotedAhead quote t).1 ≠ .comment := by
      intro quote h
      simp only [quotedAhead] at h
      split at h <;> cases h
    rw [hat] at h ⊢
    rcases runsOn_markAhead (c := c) (t := t) (by rw [h]; rfl) with rfl | rfl | ⟨rfl, hstar⟩
    · exact absurd h (hquoted _)
    · exact absurd h (hquoted _)
    · obtain ⟨u, rfl⟩ := List.head?_eq_some_iff.mp hstar
      exact ⟨rfl, u, rfl, rfl⟩

/-- **The text of a comment** goes up to the next `*/` or to the end of the text. -/
theorem comment_cases {t : Text} {l : Lexeme} {ls : List Lexeme} (h : pieces t = l :: ls)
    (hl : l.token = .comment) :
    ∃ inside, ¬ ['*', '/'] <:+: inside ∧
      (l.text = '/' :: '*' :: (inside ++ ['*', '/']) ∨
        l.text = '/' :: '*' :: inside ∧ ls = []) := by
  obtain ⟨c, v, s, -, htext, hahead, -, rfl⟩ := exists_of_pieces_eq_cons h
  have htoken : (Token.ahead c (v ++ s)).1 = .comment := by
    rw [hahead]
    exact hl
  obtain ⟨rfl, u, hu, hlength⟩ := eq_of_ahead_eq_comment htoken
  rw [hahead] at hlength
  simp only at hlength
  cases hsplit : splitAtCommentEnd? u with
  | none =>
    have hend := splitAtCommentEnd?_eq_none_iff.mp hsplit
    rw [commentLength_of_none hsplit] at hlength
    have hs : s = [] := by
      have hall := congrArg List.length hu
      rw [List.length_append, List.length_cons] at hall
      exact List.length_eq_zero_iff.mp (by omega)
    subst hs
    rw [List.append_nil] at hu
    exact ⟨u, hend, .inr ⟨by rw [htext, hu], pieces_nil⟩⟩
  | some r =>
    obtain ⟨inside, rest⟩ := r
    obtain ⟨rfl, hend⟩ := splitAtCommentEnd?_eq_some_iff.mp hsplit
    rw [commentLength_of_some hsplit] at hlength
    have hsplit' : v ++ s = ('*' :: (inside ++ ['*', '/'])) ++ rest := by
      rw [hu]
      simp
    have hv : v = '*' :: (inside ++ ['*', '/']) := by
      refine List.append_inj_left hsplit' ?_
      rw [List.length_cons, List.length_append]
      show v.length = inside.length + 2 + 1
      omega
    exact ⟨inside, hend, .inl (by rw [htext, hv])⟩

/-- A comment is closed if `*/` stands at the end of it, behind its first two characters. -/
theorem isWhole_comment_iff {l : Lexeme} {w : Text} (hl : l.token = .comment)
    (htext : l.text = '/' :: '*' :: w) : l.isWhole = true ↔ ['*', '/'] <:+ w := by
  have hiff : l.isWhole = true ↔ 4 ≤ w.length + 2 ∧ ['*', '/'] <:+ '/' :: '*' :: w := by
    rw [Lexeme.isWhole, hl, htext]
    simp only [Token.isWhole, Bool.and_eq_true, decide_eq_true_eq, List.isSuffixOf_iff_suffix,
      List.length_cons]
    rfl
  rw [hiff]
  constructor
  · rintro ⟨hlength, hsuffix⟩
    rcases List.suffix_cons_iff.mp hsuffix with heq | hsuffix
    · cases heq
    · rcases List.suffix_cons_iff.mp hsuffix with heq | hsuffix
      · cases heq
        exact absurd hlength (by decide)
      · exact hsuffix
  · intro hsuffix
    have hlength := hsuffix.length_le
    exact ⟨Nat.add_le_add_right hlength 2,
      hsuffix.trans ((List.suffix_cons _ _).trans (List.suffix_cons _ _))⟩

/-! ## The marks of the comments -/

theorem CommentAt.exists_append {t rest : Text} (h : CommentAt t rest) :
    ∃ u, u ≠ [] ∧ t = u ++ rest := by
  obtain ⟨inside, rfl, -⟩ := h
  exact ⟨'/' :: '*' :: (inside ++ ['*', '/']), List.cons_ne_nil _ _, by simp⟩

/-- A comment ends in one place. -/
theorem CommentAt.unique {t rest rest' : Text} (h : CommentAt t rest) (h' : CommentAt t rest') :
    rest = rest' := by
  obtain ⟨inside, rfl, hfirst⟩ := h
  obtain ⟨inside', hsplit, hfirst'⟩ := h'
  simp only [List.cons.injEq, true_and] at hsplit
  have hcut := splitAtCommentEnd?_eq_some_iff.mpr ⟨hsplit, hfirst'⟩
  rw [splitAtCommentEnd?_eq_some_iff.mpr ⟨rfl, hfirst⟩] at hcut
  exact (Prod.mk.inj (Option.some.inj hcut)).2

/-- The text of the lexemes, with a mark at each character that belongs to a comment. -/
def commentMarks (ls : List Lexeme) : Coverage :=
  ls.flatMap fun l => l.text.map (·, l.token == .comment)

/-- A text with a mark at each character that belongs to a comment of the tokenizer. -/
def commentTokens (t : Text) : Coverage := commentMarks (lexemes t)

/-- The text with each comment of the tokenizer replaced by the line feeds in it. -/
def blankedTokens (t : Text) : Text :=
  (lexemes t).flatMap fun l => if l.token = .comment then l.text.filter (· == '\n') else l.text

/-- A lexeme tells the comments as the pattern does: if it is a comment, it is closed, and if it is
none, the pattern matches nowhere in it. -/
structure StandsPlain (l : Lexeme) (behind : Text) : Prop where
  closed : l.token = .comment → l.isWhole = true
  outside : l.token ≠ .comment → ∀ s, s <:+ l.text → s ≠ [] → ∀ rest, ¬ CommentAt (s ++ behind) rest

/-- Every lexeme tells the comments as the pattern does. -/
def PlainlyCommented (ls : List Lexeme) : Prop :=
  ∀ before l after, ls = before ++ l :: after → StandsPlain l (Lexeme.sourceOf after)

theorem plainlyCommented_nil : PlainlyCommented [] := by
  intro before l after h
  cases before <;> cases h

theorem plainlyCommented_cons {l : Lexeme} {ls : List Lexeme} :
    PlainlyCommented (l :: ls) ↔ StandsPlain l (Lexeme.sourceOf ls) ∧ PlainlyCommented ls := by
  constructor
  · intro h
    exact ⟨h [] l ls rfl, fun before m after hls => h (l :: before) m after (by rw [hls]; rfl)⟩
  · rintro ⟨hfirst, hrest⟩ before m after hls
    rcases before with _ | ⟨k, before⟩
    · cases hls
      exact hfirst
    · cases hls
      exact hrest before m after rfl

/-- A text whose comments are closed and that has no slash outside of them. -/
theorem plainlyCommented_of_notMem {ls : List Lexeme}
    (hclosed : ∀ l ∈ ls, l.token = .comment → l.isWhole = true)
    (hslash : ∀ l ∈ ls, l.token ≠ .comment → '/' ∉ l.text) : PlainlyCommented ls := by
  rintro before l after rfl
  have hl : l ∈ before ++ l :: after := List.mem_append_right _ List.mem_cons_self
  refine ⟨hclosed l hl, fun hcomment s hs hne rest hat => hslash l hl hcomment ?_⟩
  obtain ⟨inside, hat, -⟩ := hat
  obtain ⟨c, s, rfl⟩ := List.exists_cons_of_ne_nil hne
  obtain rfl : c = '/' := (List.cons.inj hat).1
  exact hs.subset List.mem_cons_self

/-- **One lexeme** is marked as the pattern marks it exactly if it tells the comments alike. -/
theorem matches_lexeme_iff {l : Lexeme} {ls : List Lexeme} {t : Text} {m : Coverage}
    (h : pieces t = l.unplaced :: ls) :
    Matches CommentAt (l.text ++ Lexeme.sourceOf ls)
        (l.text.map (·, l.token == .comment) ++ m) ↔
      StandsPlain l (Lexeme.sourceOf ls) ∧ Matches CommentAt (Lexeme.sourceOf ls) m := by
  by_cases hl : l.token = .comment
  · obtain ⟨inside, hend, htext⟩ := comment_cases h hl
    change l.text = _ ∨ l.text = _ ∧ ls = [] at htext
    rcases htext with htext | ⟨htext, rfl⟩
    · have hat : CommentAt (l.text ++ Lexeme.sourceOf ls) (Lexeme.sourceOf ls) :=
        ⟨inside, by rw [htext]; simp, hend⟩
      have hwhole := (isWhole_comment_iff hl htext).mpr (List.suffix_append _ _)
      rw [hl, beq_self_eq_true, Text.matches_append_true_iff
        (fun _ _ _ h h' => h.unique h') (by rw [htext]; exact List.cons_ne_nil _ _) hat]
      exact ⟨fun hm => ⟨⟨fun _ => hwhole, fun hne => absurd hl hne⟩, hm⟩, And.right⟩
    · -- the pattern does not match, since no end follows
      refine iff_of_false (fun hm => ?_) fun hplain => hend ?_
      · rw [hl, htext, Lexeme.sourceOf_nil, List.append_nil] at hm
        rcases Matches.cases_cons hm with ⟨u, rest, m', -, -, ⟨inside', hat, -⟩, -⟩ | ⟨m', hm, -⟩
        · cases hat
          exact hend ⟨inside', rest, by simp⟩
        · cases hm
      · exact ((isWhole_comment_iff hl htext).mp (hplain.1.closed hl)).isInfix
  · rw [beq_false_of_ne hl, Text.matches_append_false_iff fun _ _ h => h.exists_append]
    exact and_congr_left fun _ =>
      ⟨fun houtside => ⟨fun hcomment => absurd hcomment hl, fun _ => houtside⟩,
        fun hplain => hplain.outside hl⟩

/-- **The pattern finds the comments of the tokenizer** exactly if every comment is closed and the
pattern matches nowhere in another lexeme. -/
theorem matches_commentTokens_iff (t : Text) :
    Matches CommentAt t (commentTokens t) ↔ PlainlyCommented (lexemes t) := by
  have hall : ∀ ls, ls <:+ lexemes t →
      (Matches CommentAt (Lexeme.sourceOf ls) (commentMarks ls) ↔ PlainlyCommented ls) := by
    intro ls
    induction ls with
    | nil => exact fun _ => iff_of_true .nil plainlyCommented_nil
    | cons l ls ih =>
      intro hsuffix
      have htail := (List.suffix_cons l ls).trans hsuffix
      have hpieces := pieces_sourceOf_of_suffix hsuffix
      rw [List.map_cons] at hpieces
      have hstep := matches_lexeme_iff (m := commentMarks ls) hpieces
      rw [sourceOf_map_unplaced] at hstep
      rw [plainlyCommented_cons, ← ih htail]
      exact hstep
  have h := hall (lexemes t) List.suffix_rfl
  rwa [sourceOf_lexemes] at h

theorem text_commentTokens (t : Text) : (commentTokens t).text = t := by
  have hall : ∀ ls : List Lexeme, (commentMarks ls).text = Lexeme.sourceOf ls := by
    intro ls
    induction ls with
    | nil => rfl
    | cons l ls ih =>
      rw [commentMarks, List.flatMap_cons, Coverage.text_append, ← commentMarks, ih,
        Lexeme.sourceOf_cons, Coverage.text, List.map_map]
      exact congrArg (· ++ _) (List.map_id l.text)
  exact (hall (lexemes t)).trans (sourceOf_lexemes t)

/-- **What is left of the marked text** when the comments are taken out, but for the line feeds. -/
theorem blanked_commentTokens (t : Text) : (commentTokens t).blanked = blankedTokens t := by
  rw [commentTokens, commentMarks, blankedTokens]
  induction lexemes t with
  | nil => rfl
  | cons l ls ih =>
    rw [List.flatMap_cons, List.flatMap_cons, Coverage.blanked_append, ih]
    by_cases hl : l.token = .comment
    · rw [if_pos hl, hl, beq_self_eq_true, Coverage.blanked_covered]
    · rw [if_neg hl, beq_false_of_ne hl]
      exact congrArg (· ++ _) (Coverage.blanked_uncovered l.text)

end StyleAudit.Css
