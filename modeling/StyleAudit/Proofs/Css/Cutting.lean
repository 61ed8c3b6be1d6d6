import StyleAudit.Proofs.Css.Unplaced
import StyleAudit.Proofs.Css.WholeToken
import StyleAudit.Proofs.Text.Trim

/-!
# Cutting a run of lexemes out of a text

A rule keeps its selector, its condition and the inside of its block as text.  Such a
stretch of text is the source of a run of lexemes, and it is read again later, in front of
something else than what stood behind it at first.  The lexemes come out the same
(`pieces_sourceOf_append`) if the run is *cuttable*: it holds no backslash, all its lexemes
are whole, and its last one is neither blank nor opens a bracket (`Cuttable`).  What stood
behind it and what stands behind it now must both stand apart; they do when the run was read
up to its end (`standsApart_of_endsHere`).

Trimming does nothing to a cuttable run that does not begin with white space
(`trim_sourceOf`).
-/

namespace StyleAudit.Css

/-! ## One piece after the other -/

/-- The token in front and the pieces of what it leaves. -/
theorem pieces_of_ahead {c : Char} {v s : Text} {token : Token}
    (h : Token.ahead c (v ++ s) = (token, v.length + 1)) :
    pieces (c :: (v ++ s)) = ⟨token, c :: v, .start⟩ :: pieces s := by
  rw [pieces_cons, h]
  simp only [List.take_succ_cons, List.take_left', List.drop_succ_cons, List.drop_left']

/-- The first piece is the token in front; it takes as many characters as the piece has. -/
theorem exists_of_pieces_eq_cons {t : Text} {l : Lexeme} {ls : List Lexeme}
    (h : pieces t = l :: ls) :
    ∃ c v s, t = c :: (v ++ s) ∧ l.text = c :: v ∧
      Token.ahead c (v ++ s) = (l.token, v.length + 1) ∧ l = ⟨l.token, l.text, .start⟩ ∧
        ls = pieces s := by
  cases t with
  | nil =>
    rw [pieces_nil] at h
    cases h
  | cons c u =>
    have hpos := Token.ahead_pos c u
    have hle := Token.ahead_le c u
    rw [pieces_cons] at h
    cases hahead : Token.ahead c u with
    | mk token n =>
      rw [hahead] at h hpos hle
      obtain ⟨k, rfl⟩ : ∃ k, n = k + 1 := Nat.exists_eq_succ_of_ne_zero (Nat.ne_of_gt hpos)
      cases h
      refine ⟨c, u.take k, u.drop k, ?_, rfl, ?_, rfl, rfl⟩
      · rw [List.take_append_drop]
      · rw [List.take_append_drop, hahead, List.length_take_of_le (Nat.le_of_succ_le_succ hle)]

/-- Each piece of a text is the token in front of some rest of it. -/
theorem exists_ahead_of_mem_pieces {t : Text} {l : Lexeme} (h : l ∈ pieces t) :
    ∃ c v s, l.text = c :: v ∧ Token.ahead c (v ++ s) = (l.token, v.length + 1) ∧
      c :: (v ++ s) <:+ t := by
  generalize hls : pieces t = ls at h
  induction ls generalizing t with
  | nil => cases h
  | cons m ls ih =>
    obtain ⟨c, v, s, rfl, htext, hahead, -, rfl⟩ := exists_of_pieces_eq_cons hls
    rcases List.mem_cons.mp h with rfl | h
    · exact ⟨c, v, s, htext, hahead, List.suffix_rfl⟩
    · obtain ⟨c', v', s', htext', hahead', hsuffix⟩ := ih rfl h
      exact ⟨c', v', s', htext', hahead', hsuffix.trans ⟨c :: v, rfl⟩⟩

/-- What is left of the pieces of a text are the pieces of what is left of the text. -/
theorem pieces_sourceOf_of_append {t : Text} {run rest : List Lexeme}
    (h : pieces t = run ++ rest) : pieces (Lexeme.sourceOf rest) = rest := by
  induction run generalizing t with
  | nil =>
    rw [List.nil_append] at h
    rw [← h, sourceOf_pieces]
  | cons l run ih =>
    obtain ⟨-, -, s, -, -, -, -, hs⟩ := exists_of_pieces_eq_cons h
    exact ih hs.symm

/-! ## The first character tells -/

/-- Whether the token can stand behind a run: white space, a comment, a semicolon, a brace. -/
def Token.isEdge : Token → Bool
  | space | comment | semicolon | opening .curly | closing .curly => true
  | _ => false

theorem isEdge_numericAhead (t : Text) : (numericAhead t).1.isEdge = false := by
  simp only [numericAhead]
  split
  · rfl
  · split <;> rfl

theorem isEdge_identLikeAhead (t : Text) : (identLikeAhead t).1.isEdge = false := by
  by_cases hparen : (t.drop (nameAhead t).2).head? = some '('
  · obtain ⟨rest, hrest⟩ := List.head?_eq_some_iff.mp hparen
    rw [identLikeAhead_of_paren hrest]
    split
    · simp only [urlTokenAhead]
      split
      · rfl
      · split <;> rfl
    · rfl
  · rw [identLikeAhead_of_no_paren hparen]
    rfl

theorem mem_boundaries_of_isEdge_markAhead {c : Char} {t : Text}
    (h : (markAhead c t).1.isEdge = true) : c ∈ boundaries ∧ (markAhead c t).1 ≠ .space := by
  have hquoted : ∀ quote, (quotedAhead quote t).1.isEdge = false := by
    intro quote
    simp only [quotedAhead]
    split <;> rfl
  have hmatch : ∀ c token, token.isEdge = false → (matchAhead c token t).1.isEdge = false := by
    intro c token htoken
    unfold matchAhead
    split
    · exact htoken
    · rfl
  unfold markAhead at h ⊢
  split at h
  case h_1 | h_2 => rw [hquoted] at h; cases h
  case h_3 | h_4 | h_6 =>
    repeat' split at h
    all_goals cases h
  case h_5 =>
    refine ⟨by decide, ?_⟩
    split
    all_goals exact Token.noConfusion
  case h_7 | h_8 | h_9 | h_10 | h_11 => rw [hmatch _ _ rfl] at h; cases h
  case h_13 | h_17 | h_20 => exact ⟨by decide, Token.noConfusion⟩
  all_goals cases h

/-- Which scanner finds the token. -/
theorem ahead_cases (c : Char) (t : Text) :
    (isSpace c = true ∧ (Token.ahead c t).1 = .space) ∨ isSpace c = false ∧
      (Token.ahead c t = numericAhead (c :: t) ∨ Token.ahead c t = (.commentClose, 3) ∨
        (nameStartsAt (c :: t) = true ∧ Token.ahead c t = identLikeAhead (c :: t)) ∨
        Token.ahead c t = markAhead c t) := by
  unfold Token.ahead
  split
  next hs => exact .inl ⟨hs, rfl⟩
  next hs =>
    refine .inr ⟨Bool.eq_false_iff.mpr hs, ?_⟩
    split
    · exact .inl rfl
    · split
      · exact .inr (.inl rfl)
      · split
        next hname => exact .inr (.inr (.inl ⟨hname, rfl⟩))
        next => exact .inr (.inr (.inr rfl))

/-- A token that can stand behind a run begins with a boundary. -/
theorem mem_boundaries_of_isEdge {c : Char} {t : Text}
    (h : (Token.ahead c t).1.isEdge = true) : c ∈ boundaries := by
  rcases ahead_cases c t with ⟨hs, -⟩ | ⟨-, hat | hat | ⟨-, hat⟩ | hat⟩
  · exact mem_boundaries_of_isSpace hs
  · rw [hat, isEdge_numericAhead] at h
    cases h
  · rw [hat] at h
    cases h
  · rw [hat, isEdge_identLikeAhead] at h
    cases h
  · rw [hat] at h
    exact (mem_boundaries_of_isEdge_markAhead h).1

/-- White space is what begins with white space. -/
theorem ahead_eq_space_iff {c : Char} {t : Text} :
    (Token.ahead c t).1 = .space ↔ isSpace c = true := by
  have hedge : Token.isEdge .space = true := rfl
  rcases ahead_cases c t with ⟨hs, hat⟩ | ⟨hs, hat⟩
  · exact iff_of_true hat hs
  · refine iff_of_false (fun h => ?_) (by rw [hs]; exact Bool.false_ne_true)
    rcases hat with hat | hat | ⟨-, hat⟩ | hat
    · rw [← h, hat, isEdge_numericAhead] at hedge
      cases hedge
    · rw [hat] at h
      cases h
    · rw [← h, hat, isEdge_identLikeAhead] at hedge
      cases hedge
    · rw [← h, hat] at hedge
      exact (mem_boundaries_of_isEdge_markAhead hedge).2 (hat ▸ h)

/-- A text stands apart where a run ends. -/
theorem standsApart_of_endsHere {stop : Token → Bool}
    (hstop : ∀ token, stop token = true → token.isEdge = true) {t : Text}
    (h : endsHere stop (pieces t) = true) : StandsApart t := by
  cases ht : pieces t with
  | nil =>
    have hsource := sourceOf_pieces t
    rw [ht] at hsource
    rw [← hsource]
    exact standsApart_nil
  | cons l ls =>
    obtain ⟨c, v, s, rfl, -, hahead, -, -⟩ := exists_of_pieces_eq_cons ht
    rw [standsApart_cons]
    refine mem_boundaries_of_isEdge (t := v ++ s) ?_
    rw [hahead]
    rw [ht, endsHere, skipBlanks] at h
    by_cases hblank : l.isBlank = true
    · cases htoken : l.token with
      | space | comment => rfl
      | _ => rw [Lexeme.isBlank, htoken] at hblank; cases hblank
    · rw [List.dropWhile_cons_of_neg hblank] at h
      exact hstop _ h

/-! ## Cuttable runs -/

/-- Whether the lexeme has found its own end. -/
def Lexeme.isWhole (l : Lexeme) : Bool := l.token.isWhole l.text

/-- A run of lexemes that is the same wherever it stands: no escapes, all lexemes whole, the
last one neither blank nor opening a bracket. -/
structure Cuttable (run : List Lexeme) : Prop where
  noEscape : '\\' ∉ Lexeme.sourceOf run
  whole : ∀ l ∈ run, l.isWhole = true
  ends : ∀ l ∈ run.getLast?, l.isBlank = false ∧ l.token.opens? = none

theorem Cuttable.tail {l : Lexeme} {run : List Lexeme} (h : Cuttable (l :: run)) :
    Cuttable run where
  noEscape := fun hmem => h.noEscape (List.mem_append_right _ hmem)
  whole := fun m hm => h.whole m (List.mem_cons_of_mem _ hm)
  ends := by
    intro m hm
    refine h.ends m ?_
    rw [List.getLast?_cons, hm]
    rfl

/-- A lexeme that the end of the run does not belong to is followed by something else than
white space. -/
theorem Cuttable.exists_not_isSpace {l : Lexeme} {run : List Lexeme} {t : Text}
    (h : Cuttable (l :: run)) (hl : l.token.awaitsNext = true)
    (hmem : ∀ m ∈ run, m ∈ pieces t) : ∃ x ∈ Lexeme.sourceOf run, isSpace x = false := by
  cases hlast : run.getLast? with
  | none =>
    rw [List.getLast?_eq_none_iff] at hlast
    subst hlast
    obtain ⟨hblank, hopen⟩ := h.ends l rfl
    cases htoken : l.token with
    | space => rw [Lexeme.isBlank, htoken] at hblank; cases hblank
    | function => rw [htoken] at hopen; cases hopen
    | _ => rw [htoken] at hl; cases hl
  | some m =>
    have hm : m ∈ run := List.mem_of_getLast? hlast
    obtain ⟨c, v, s, htext, hahead, -⟩ := exists_ahead_of_mem_pieces (hmem m hm)
    refine ⟨c, ?_, ?_⟩
    · refine List.mem_flatMap.mpr ⟨m, hm, ?_⟩
      rw [htext]
      exact List.mem_cons_self
    · rw [Bool.eq_false_iff]
      intro hs
      have htoken : m.token = .space := by
        rw [← ahead_eq_space_iff (t := v ++ s), hahead] at hs
        exact hs
      have hblank := (h.tail.ends m hlast).1
      rw [Lexeme.isBlank, htoken] at hblank
      cases hblank

/-- **A cuttable run is the same before another text.** -/
theorem pieces_sourceOf_append {run : List Lexeme} {y d : Text} (hrun : Cuttable run)
    (hy : StandsApart y) (hd : StandsApart d)
    (h : pieces (Lexeme.sourceOf run ++ y) = run ++ pieces y) :
    pieces (Lexeme.sourceOf run ++ d) = run ++ pieces d := by
  induction run with
  | nil => rfl
  | cons l run ih =>
    obtain ⟨c, v, s, ht, htext, hahead, hl, hs⟩ := exists_of_pieces_eq_cons h
    rw [Lexeme.sourceOf_cons, htext, List.append_assoc, List.cons_append, List.cons.injEq,
      List.append_cancel_left_eq] at ht
    obtain ⟨-, rfl⟩ := ht
    have hnext : Token.ahead c (v ++ Lexeme.sourceOf run ++ d) = (l.token, v.length + 1) := by
      refine Token.ahead_congr hy hd ?_ (by rwa [List.append_assoc]) ?_ ?_
      · have := hrun.noEscape
        rwa [Lexeme.sourceOf_cons, htext] at this
      · rw [← htext]
        exact hrun.whole l List.mem_cons_self
      · intro hawaits
        refine hrun.exists_not_isSpace hawaits (t := Lexeme.sourceOf run ++ y) fun m hm => ?_
        rw [← hs]
        exact List.mem_append_left _ hm
    rw [Lexeme.sourceOf_cons, htext, List.append_assoc, List.cons_append,
      pieces_of_ahead (by rwa [← List.append_assoc]), ih hrun.tail hs.symm, ← htext, ← hl]
    rfl

/-! ## Trimming -/

theorem isBlank_of_isSpace {c : Char} (h : isSpace c = true) : isBlank c = true := by
  simp only [isSpace, isNewline, Bool.or_eq_true, beq_iff_eq] at h
  rcases h with (rfl | rfl) | (rfl | rfl) | rfl <;> decide

/-- White space holds nothing else. -/
theorem isSpace_of_mem_text {t : Text} {l : Lexeme} (h : l ∈ pieces t)
    (hl : l.token = .space) : ∀ x ∈ l.text, isSpace x = true := by
  obtain ⟨c, v, s, htext, hahead, -⟩ := exists_ahead_of_mem_pieces h
  have hc : isSpace c = true := by
    rw [← ahead_eq_space_iff (t := v ++ s), hahead]
    exact hl
  rw [Token.ahead, if_pos hc] at hahead
  have hlen : ((v ++ s).takeWhile isSpace).length = v.length := by
    have := (Prod.mk.inj hahead).2
    omega
  have hv : (v ++ s).takeWhile isSpace = v :=
    List.append_inj_left
      ((List.takeWhile_append_dropWhile (p := isSpace) (l := v ++ s)).trans rfl) hlen
  intro x hx
  rw [htext] at hx
  rcases List.mem_cons.mp hx with rfl | hx
  · exact hc
  · rw [← hv] at hx
    exact List.mem_takeWhile_imp hx

/-- A cuttable run does not end in white space. -/
theorem Cuttable.isSpace_getLast? {run : List Lexeme} {t : Text} (hrun : Cuttable run)
    (hmem : ∀ l ∈ run, l ∈ pieces t) :
    ∀ x ∈ (Lexeme.sourceOf run).getLast?, isSpace x = false := by
  rcases List.eq_nil_or_concat run with rfl | ⟨front, l, rfl⟩
  · intro x hx
    cases hx
  · rw [List.concat_eq_append] at hrun hmem ⊢
    have hl : l ∈ front ++ [l] := List.mem_append_right _ (List.mem_singleton_self l)
    obtain ⟨c, v, s, htext, hahead, -⟩ := exists_ahead_of_mem_pieces (hmem l hl)
    obtain ⟨hblank, hopen⟩ := hrun.ends l List.getLast?_concat
    have hescape := hrun.noEscape
    have hwhole := hrun.whole l hl
    rw [Lexeme.isWhole, htext] at hwhole
    rw [Lexeme.sourceOf_append, Lexeme.sourceOf_cons, Lexeme.sourceOf_nil, List.append_nil,
      htext] at hescape ⊢
    intro x hx
    rw [List.getLast?_append_of_ne_nil _ (List.cons_ne_nil c v)] at hx
    exact isSpace_getLast?_eq_false (fun h => hescape (List.mem_append_right _ h)) hahead hwhole
      hblank hopen x hx

/-- **A cuttable run that does not begin with white space is trimmed already.** -/
theorem trim_sourceOf {run : List Lexeme} {t : Text} (hrun : Cuttable run)
    (hmem : ∀ l ∈ run, l ∈ pieces t)
    (hplain : ∀ c ∈ Lexeme.sourceOf run, isBlank c = true → isSpace c = true)
    (hfirst : ∀ l ∈ run.head?, l.token ≠ .space) :
    Text.trim (Lexeme.sourceOf run) = Lexeme.sourceOf run := by
  refine Text.trim_eq_self (fun x hx => ?_) fun x hx => ?_
  · cases run with
    | nil => cases hx
    | cons l run =>
      obtain ⟨c, v, s, htext, hahead, -⟩ := exists_ahead_of_mem_pieces (hmem l List.mem_cons_self)
      rw [Lexeme.sourceOf_cons, htext] at hplain hx
      obtain rfl : c = x := Option.some.inj hx
      rw [Bool.eq_false_iff]
      intro hblank
      have hs := hplain c List.mem_cons_self hblank
      rw [← ahead_eq_space_iff (t := v ++ s), hahead] at hs
      exact hfirst l rfl hs
  · rw [Bool.eq_false_iff]
    intro hblank
    have hspace := hrun.isSpace_getLast? hmem x hx
    rw [hplain x (List.mem_of_getLast? hx) hblank] at hspace
    cases hspace

/-! ## Pieces that are known -/

theorem pieces_openCurly (t : Text) :
    pieces ('\x7b' :: t) = ⟨.opening .curly, ['\x7b'], .start⟩ :: pieces t :=
  pieces_of_ahead (v := []) (s := t) rfl

theorem pieces_closeCurly (t : Text) :
    pieces ('\x7d' :: t) = ⟨.closing .curly, ['\x7d'], .start⟩ :: pieces t :=
  pieces_of_ahead (v := []) (s := t) rfl

theorem pieces_semicolon (t : Text) : pieces (';' :: t) = ⟨.semicolon, [';'], .start⟩ :: pieces t :=
  pieces_of_ahead (v := []) (s := t) rfl

theorem pieces_colon (t : Text) : pieces (':' :: t) = ⟨.colon, [':'], .start⟩ :: pieces t :=
  pieces_of_ahead (v := []) (s := t) rfl

/-- White space in front is one piece. -/
theorem pieces_of_isSpace {c : Char} (hc : isSpace c = true) (t : Text) :
    pieces (c :: t) =
      ⟨.space, c :: t.takeWhile isSpace, .start⟩ :: pieces (t.dropWhile isSpace) := by
  have hahead : Token.ahead c (t.takeWhile isSpace ++ t.dropWhile isSpace) =
      (.space, (t.takeWhile isSpace).length + 1) := by
    rw [List.takeWhile_append_dropWhile, Token.ahead, if_pos hc, Nat.add_comm]
  have h := pieces_of_ahead hahead
  rwa [List.takeWhile_append_dropWhile] at h

/-- A space and a brace, as they stand between the head of a rule and its block. -/
theorem pieces_block (t : Text) :
    pieces (' ' :: '\x7b' :: t) =
      ⟨.space, [' '], .start⟩ :: ⟨.opening .curly, ['\x7b'], .start⟩ :: pieces t := by
  rw [pieces_of_isSpace rfl]
  exact congrArg _ (pieces_openCurly _)

theorem skipBlanks_pieces_block (t : Text) :
    skipBlanks (pieces (' ' :: '\x7b' :: t)) =
      ⟨.opening .curly, ['\x7b'], .start⟩ :: pieces t := by
  rw [pieces_block]
  rfl

section Blanks

variable {eof : Place} {first : Bool}

theorem rulesFrom_pieces_dropWhile (t : Text) :
    rulesFrom eof first (pieces (t.dropWhile isSpace)) = rulesFrom eof first (pieces t) := by
  cases t with
  | nil => rfl
  | cons c t =>
    by_cases hc : isSpace c = true
    · rw [List.dropWhile_cons_of_pos hc, pieces_of_isSpace hc, rulesFrom_of_separates rfl]
    · rw [List.dropWhile_cons_of_neg hc]

/-- White space in front of rules does not matter. -/
theorem rulesFrom_pieces_of_isSpace {c : Char} (hc : isSpace c = true) (t : Text) :
    rulesFrom eof first (pieces (c :: t)) = rulesFrom eof first (pieces t) := by
  rw [← rulesFrom_pieces_dropWhile (c :: t), List.dropWhile_cons_of_pos hc,
    rulesFrom_pieces_dropWhile]

end Blanks

/-! ## Names -/

theorem isNameChar_ne {c : Char} (h : isNameChar c = true) : c ≠ '\\' ∧ c ≠ '\x00' := by
  constructor
  · rintro rfl
    cases h
  · rintro rfl
    cases h

/-- A text of characters that stand in names as they are is a name. -/
theorem nameAhead_of_isNameChar {k : Text} (h : ∀ c ∈ k, isNameChar c = true) :
    nameAhead k = (k, k.length) := by
  induction k with
  | nil => rw [nameAhead]; rfl
  | cons c k ih =>
    have hc := h c List.mem_cons_self
    rw [nameAhead, if_neg (isNameChar_ne hc).1, if_neg (isNameChar_ne hc).2, if_pos hc,
      ih fun x hx => h x (List.mem_cons_of_mem _ hx)]
    simp only [List.length_cons, Nat.add_comm]

theorem nameAhead_append_of_isNameChar {k d : Text} (h : ∀ c ∈ k, isNameChar c = true)
    (hd : StandsApart d) : nameAhead (k ++ d) = (k, k.length) := by
  rw [nameAhead_append hd fun hmem => (isNameChar_ne (h _ hmem)).1 rfl,
    nameAhead_of_isNameChar h]

/-- Without escapes, a name is made of characters that stand in names as they are. -/
theorem isNameChar_of_mem_nameAhead {u : Text} (hb : '\\' ∉ u) :
    ∀ c ∈ (nameAhead u).1, isNameChar c = true := by
  induction u with
  | nil =>
    rw [nameAhead]
    intro c hc
    cases hc
  | cons c u ih =>
    have hne : c ≠ '\\' := by
      rintro rfl
      exact hb List.mem_cons_self
    have ih := ih fun h => hb (List.mem_cons_of_mem _ h)
    rw [nameAhead, if_neg hne]
    intro x hx
    split at hx
    · rcases List.mem_cons.mp hx with rfl | hx
      · rfl
      · exact ih x hx
    · split at hx
      next hc =>
        rcases List.mem_cons.mp hx with rfl | hx
        · exact hc
        · exact ih x hx
      next => cases hx

/-- What a character that begins a name, or a hyphen, gives to the name. -/
theorem nameAhead_cons {c : Char} (hb : c ≠ '\\') (hc : isNameStart c = true ∨ c = '-')
    (u : Text) :
    (nameAhead (c :: u)).1 = (if c = '\x00' then replacement else c) :: (nameAhead u).1 := by
  rw [nameAhead, if_neg hb]
  by_cases hz : c = '\x00'
  · rw [if_pos hz, if_pos hz]
  · have hname : isNameChar c = true := by
      rcases hc with hc | rfl
      · simp only [isNameStart, isNameChar, Char.isAlphanum, Bool.or_eq_true, beq_iff_eq] at hc ⊢
        rcases hc with ((hc | hc) | hc) | hc
        · exact .inl (.inl (.inl (.inl hc)))
        · exact .inl (.inl (.inr hc))
        · exact absurd hc hz
        · exact .inr hc
      · rfl
    rw [if_neg hz, if_neg hz, if_pos hname]

/-- Without escapes, the name at the front of a text begins like one. -/
theorem nameStartsAt_nameAhead {u : Text} (hb : '\\' ∉ u) (h : nameStartsAt u = true) :
    nameStartsAt (nameAhead u).1 = true := by
  have hfirst : ∀ c : Char, isNameStart c = true →
      isNameStart (if c = '\x00' then replacement else c) = true := by
    intro c hc
    split
    · rfl
    · exact hc
  cases u with
  | nil => cases h
  | cons c u =>
    have hc : c ≠ '\\' := by
      rintro rfl
      exact hb List.mem_cons_self
    by_cases hy : c = '-'
    · subst hy
      rw [nameAhead_cons hc (.inr rfl)]
      cases u with
      | nil => cases h
      | cons e u =>
        have he : e ≠ '\\' := by
          rintro rfl
          exact hb (List.mem_cons_of_mem _ List.mem_cons_self)
        have hstart : isNameStart e = true ∨ e = '-' := by
          simpa [nameStartsAt, he] using h
        rw [nameAhead_cons he hstart]
        rcases hstart with hstart | rfl
        · simp only [nameStartsAt, hfirst e hstart, Bool.true_or, Char.reduceEq, if_false]
        · rfl
    · rw [nameStartsAt_cons hy hc] at h
      rw [nameAhead_cons hc (.inl h), nameStartsAt_cons, hfirst c h]
      · split
        · decide
        · exact hy
      · split
        · decide
        · exact hc

/-- A keyword is the name behind an at sign. -/
theorem eq_of_ahead_eq_atKeyword {c : Char} {t k : Text}
    (h : (Token.ahead c t).1 = .atKeyword k) :
    c = '@' ∧ nameStartsAt t = true ∧ (nameAhead t).1 = k := by
  have hmatch : ∀ c token, (matchAhead c token t).1 = .atKeyword k → token = .atKeyword k := by
    intro c token h
    unfold matchAhead at h
    split at h
    · exact h
    · cases h
  have hquoted : ∀ quote, (quotedAhead quote t).1 ≠ .atKeyword k := by
    intro quote h
    simp only [quotedAhead] at h
    split at h <;> cases h
  have hident : ∀ u, (identLikeAhead u).1 ≠ .atKeyword k := by
    intro u h
    by_cases hparen : (u.drop (nameAhead u).2).head? = some '('
    · obtain ⟨rest, hrest⟩ := List.head?_eq_some_iff.mp hparen
      have hrun := runsOn_identLikeAhead hrest
      rw [h] at hrun
      cases hrun
    · rw [identLikeAhead_of_no_paren hparen] at h
      cases h
  have hnumeric : ∀ u, (numericAhead u).1 ≠ .atKeyword k := by
    intro u h
    simp only [numericAhead] at h
    repeat' split at h
    all_goals cases h
  rcases ahead_cases c t with ⟨-, hat⟩ | ⟨-, hat | hat | ⟨-, hat⟩ | hat⟩
  · cases hat.symm.trans h
  · exact absurd (hat ▸ h) (hnumeric _)
  · rw [hat] at h
    cases h
  · exact absurd (hat ▸ h) (hident _)
  rw [hat] at h
  unfold markAhead at h
  split at h
  case h_1 | h_2 => exact absurd h (hquoted _)
  case h_4 =>
    simp only at h
    split at h
    next hname => exact ⟨rfl, hname, Token.atKeyword.inj h⟩
    next => cases h
  case h_7 | h_8 | h_9 | h_10 | h_11 => cases hmatch _ _ h
  case h_3 | h_5 | h_6 =>
    repeat' split at h
    all_goals cases h
  all_goals cases h

/-- A keyword with its sign. -/
theorem pieces_atKeyword {k d : Text} (hk : ∀ c ∈ k, isNameChar c = true)
    (hstart : nameStartsAt k = true) (hd : StandsApart d) :
    pieces ('@' :: (k ++ d)) = ⟨.atKeyword k, '@' :: k, .start⟩ :: pieces d := by
  refine pieces_of_ahead ?_
  have hb : '\\' ∉ k := fun hmem => (isNameChar_ne (hk _ hmem)).1 rfl
  have hmark : Token.ahead '@' (k ++ d) = markAhead '@' (k ++ d) := rfl
  rw [hmark]
  simp only [markAhead, nameStartsAt_append hd hb, hstart, if_true,
    nameAhead_append_of_isNameChar hk hd, Nat.add_comm]

end StyleAudit.Css
