import StyleAudit.Proofs.Files.Grammar

/-!
# What the wildcards of a pattern stand for

A text is matched if the tokens of the pattern can be filled in so that they make the text: `?` and
classes with one character each, `*` with any stretch, which may have slashes in it (`Fills`).
Nothing is said of `**` here.

The matcher looks for a filling from the left.  It is right to give up for good when the text is
used up, because a pattern that is exhausted by a text is not filled by any end of that text.  This
is the third clause of `Judges`, and with it the three verdicts go through the recursion together
(`judges_run`).

* `isMatch_iff_fills` --- the matcher finds a filling if there is one;
* `fills_append_iff` --- a filling of two patterns in a row is one of each;
* `IsPlain.compile` --- without brackets and without two stars in a row, a pattern is compiled
  character by character.
-/

namespace StyleAudit.Glob

/-! ## Fillings -/

/-- The text is what the pattern becomes when its wildcards are filled in. -/
inductive Fills : Pattern → Text → Prop
  | nil : Fills [] []
  | one {token : Token} {ts : Pattern} {c : Char} {t : Text} :
    token.admits c = true → Fills ts t → Fills (token :: ts) (c :: t)
  | stretch {ts : Pattern} (u : Text) {t : Text} : Fills ts t → Fills (.sequence :: ts) (u ++ t)

section Fillings

variable {p q ts : Pattern} {t : Text}

theorem fills_nil_iff : Fills [] t ↔ t = [] := by
  refine ⟨fun h => ?_, fun h => h ▸ .nil⟩
  cases h
  rfl

theorem fills_one_iff {token : Token} (h : token ≠ .sequence) :
    Fills (token :: ts) t ↔ ∃ c u, t = c :: u ∧ token.admits c = true ∧ Fills ts u := by
  constructor
  · intro hfills
    cases hfills with
    | one hc hrest => exact ⟨_, _, rfl, hc, hrest⟩
    | stretch u hrest => exact absurd rfl h
  · rintro ⟨c, u, rfl, hc, hrest⟩
    exact .one hc hrest

theorem fills_sequence_iff : Fills (.sequence :: ts) t ↔ ∃ u, u <:+ t ∧ Fills ts u := by
  constructor
  · intro hfills
    cases hfills with
    | one hc hrest => cases hc
    | stretch u hrest => exact ⟨_, List.suffix_append _ _, hrest⟩
  · rintro ⟨u, ⟨v, rfl⟩, hrest⟩
    exact .stretch v hrest

/-- **A filling of two patterns in a row is one of each.** -/
theorem fills_append_iff : Fills (p ++ q) t ↔ ∃ u v, t = u ++ v ∧ Fills p u ∧ Fills q v := by
  constructor
  · induction p generalizing t with
    | nil => exact fun h => ⟨[], t, rfl, .nil, h⟩
    | cons token p ih =>
      intro h
      cases h with
      | one hc hrest =>
        obtain ⟨u, v, rfl, hp, hq⟩ := ih hrest
        exact ⟨_ :: u, v, rfl, .one hc hp, hq⟩
      | stretch w hrest =>
        obtain ⟨u, v, rfl, hp, hq⟩ := ih hrest
        exact ⟨w ++ u, v, (List.append_assoc _ _ _).symm, .stretch w hp, hq⟩
  · rintro ⟨u, v, rfl, hp, hq⟩
    induction hp with
    | nil => exact hq
    | one hc _ ih => exact .one hc ih
    | stretch w _ ih =>
      rw [List.append_assoc]
      exact .stretch w ih

/-- A character of the pattern that stands for itself is a place where the text can be cut. -/
theorem fills_append_literal_iff {c : Char} :
    Fills (p ++ .literal c :: q) t ↔ ∃ u v, t = u ++ c :: v ∧ Fills p u ∧ Fills q v := by
  rw [fills_append_iff]
  constructor
  · rintro ⟨u, w, rfl, hp, hw⟩
    cases hw with
    | one hd hq => exact ⟨u, _, by rw [eq_of_beq hd], hp, hq⟩
  · rintro ⟨u, v, rfl, hp, hq⟩
    exact ⟨u, c :: v, rfl, hp, .one (beq_self_eq_true c) hq⟩

end Fillings

/-! ## The matcher -/

/-- What a verdict on a pattern and a text says about fillings. -/
def Judges (p : Pattern) (t : Text) : Verdict → Prop
  | .matched => Fills p t
  | .mismatch => t ≠ [] ∧ ¬ Fills p t
  | .exhausted => ∀ u, u <:+ t → ¬ Fills p u

section Stretches

variable {ts : Pattern} {c : Char} {t : Text} {v : Verdict}

/-- If the rest of a pattern fits here or nowhere, no stretch is taken. -/
theorem Judges.sequence (h : Judges ts t v) (hv : v ≠ .mismatch) :
    Judges (.sequence :: ts) t v := by
  cases v with
  | matched => exact .stretch [] h
  | mismatch => exact absurd rfl hv
  | exhausted =>
    intro u hu hfills
    obtain ⟨w, hw, hrest⟩ := fills_sequence_iff.mp hfills
    exact h w (hw.trans hu) hrest

/-- If the rest of a pattern does not fit here, the stretch takes the next character. -/
theorem Judges.skip (hv : Judges (.sequence :: ts) t v) (h : ¬ Fills ts (c :: t)) :
    Judges (.sequence :: ts) (c :: t) v := by
  have hskip : Fills (.sequence :: ts) (c :: t) ↔ Fills (.sequence :: ts) t := by
    rw [fills_sequence_iff, fills_sequence_iff]
    refine exists_congr fun u => and_congr_left fun hu => ?_
    rw [List.suffix_cons_iff]
    exact or_iff_right fun heq => h (heq ▸ hu)
  cases v with
  | matched => exact hskip.mpr hv
  | mismatch => exact ⟨List.cons_ne_nil _ _, fun hfills => hv.2 (hskip.mp hfills)⟩
  | exhausted =>
    intro u hu hfills
    rcases List.suffix_cons_iff.mp hu with rfl | hu
    · exact hv t List.suffix_rfl (hskip.mp hfills)
    · exact hv u hu hfills

/-- To try the rest of a pattern from the left on is to look for the stretch of a `*`. -/
theorem judges_anywhere {rest : Text → Verdict} (h : ∀ t, Judges ts t (rest t)) (t : Text) :
    Judges (.sequence :: ts) t (anywhere rest t) := by
  induction t with
  | nil =>
    have hrest := h []
    rw [anywhere]
    refine hrest.sequence fun hmismatch => ?_
    rw [hmismatch] at hrest
    exact hrest.1 rfl
  | cons c t ih =>
    have hrest := h (c :: t)
    rw [anywhere]
    cases hverdict : rest (c :: t) with
    | matched => exact (hverdict ▸ hrest).sequence nofun
    | mismatch =>
      rw [hverdict] at hrest
      exact ih.skip hrest.2
    | exhausted => exact (hverdict ▸ hrest).sequence nofun

end Stretches

section Characters

variable {token : Token} {ts : Pattern} {c : Char} {t : Text} {v : Verdict}

theorem fills_cons_iff (htoken : token ≠ .sequence) :
    Fills (token :: ts) (c :: t) ↔ token.admits c = true ∧ Fills ts t := by
  rw [fills_one_iff htoken]
  constructor
  · rintro ⟨_, _, heq, hc, hrest⟩
    obtain ⟨rfl, rfl⟩ := List.cons.inj heq
    exact ⟨hc, hrest⟩
  · exact fun ⟨hc, hrest⟩ => ⟨c, t, rfl, hc, hrest⟩

/-- To compare one token with one character is to fill the token in. -/
theorem Judges.cons (h : Judges ts t v) (htoken : token ≠ .sequence) :
    Judges (token :: ts) (c :: t) (if token.admits c then v else .mismatch) := by
  split
  next hc =>
    cases v with
    | matched => exact .one hc h
    | mismatch => exact ⟨List.cons_ne_nil _ _, fun hall => h.2 ((fills_cons_iff htoken).mp hall).2⟩
    | exhausted =>
      intro u hu hall
      obtain ⟨d, u, rfl, -, hrest⟩ := (fills_one_iff htoken).mp hall
      -- What is behind the first character of an end of the text is an end of what is behind.
      exact h u (List.suffix_of_suffix_length_le ((List.suffix_cons _ _).trans hu)
        (List.suffix_cons _ _) (Nat.le_of_succ_le_succ hu.length_le)) hrest
  next hc => exact ⟨List.cons_ne_nil _ _, fun hall => hc ((fills_cons_iff htoken).mp hall).1⟩

/-- A pattern that does not begin with `*` takes a character at least. -/
theorem judges_nil_exhausted (htoken : token ≠ .sequence) :
    Judges (token :: ts) [] .exhausted := by
  intro u hu hfills
  rw [List.suffix_nil.mp hu] at hfills
  obtain ⟨_, _, heq, -⟩ := (fills_one_iff htoken).mp hfills
  cases heq

end Characters

/-- **The verdicts of the matcher tell what can be filled in.** -/
theorem judges_run {p : Pattern} (hp : .directories ∉ p) (t : Text) : Judges p t (run p t) := by
  induction p generalizing t with
  | nil =>
    cases t with
    | nil => exact .nil
    | cons c t => exact ⟨List.cons_ne_nil _ _, fun h => nomatch h⟩
  | cons token ts ih =>
    have ih := ih fun hmem => hp (List.mem_cons_of_mem _ hmem)
    cases token with
    | sequence => exact judges_anywhere ih t
    | directories => exact absurd List.mem_cons_self hp
    | literal | any | within | except =>
      -- These stand for one character each, whichever characters they admit.
      cases t with
      | nil => exact judges_nil_exhausted nofun
      | cons c t => exact (ih t).cons nofun

/-- **A text is matched exactly if the pattern can be filled in to make it.** -/
theorem isMatch_iff_fills {p : Pattern} (hp : .directories ∉ p) (t : Text) :
    isMatch p t = true ↔ Fills p t := by
  have hjudges := judges_run hp t
  rw [isMatch, beq_iff_eq]
  cases hrun : run p t with
  | matched =>
    rw [hrun] at hjudges
    exact iff_of_true rfl hjudges
  | mismatch =>
    rw [hrun] at hjudges
    exact iff_of_false nofun hjudges.2
  | exhausted =>
    rw [hrun] at hjudges
    exact iff_of_false nofun (hjudges t List.suffix_rfl)

/-! ## Patterns without brackets -/

/-- What a character of a pattern means where it stands for itself or is a wildcard of its own. -/
def Token.ofChar (c : Char) : Token :=
  if c = '*' then .sequence else if c = '?' then .any else .literal c

theorem Token.ofChar_of_ne {c : Char} (h : c ≠ '*') :
    ofChar c = if c = '?' then .any else .literal c := if_neg h

theorem Token.ofChar_ne_directories (c : Char) : ofChar c ≠ .directories := by
  unfold ofChar
  split
  · exact nofun
  · split <;> exact nofun

/-- No character of the pattern means more than it does alone: there is no bracket, and no two
stars stand in a row. -/
structure IsPlain (t : Text) : Prop where
  noBracket : '[' ∉ t
  noStars : ¬ ['*', '*'] <:+: t

theorem IsPlain.of_infix {s t : Text} (h : IsPlain t) (hs : s <:+: t) : IsPlain s where
  noBracket hmem := h.noBracket (hs.subset hmem)
  noStars hstars := h.noStars (hstars.trans hs)

/-- **A plain pattern is compiled character by character.** -/
theorem IsPlain.compileFrom {t : Text} (h : IsPlain t) :
    ∀ (position : Nat) (before : Option Char) (tokens : List Token),
      Glob.compileFrom position before tokens t = .ok (tokens.reverse ++ t.map Token.ofChar) := by
  induction t with
  | nil =>
    intro position before tokens
    rw [compileFrom_nil, List.map_nil, List.append_nil]
  | cons c t ih =>
    intro position before tokens
    have ih := ih (h.of_infix (List.suffix_cons c t).isInfix)
    have hnext : ∀ tokens : List Token, (Token.ofChar c :: tokens).reverse ++ t.map Token.ofChar =
        tokens.reverse ++ (c :: t).map Token.ofChar := by
      intro tokens
      rw [List.reverse_cons, List.append_assoc, List.map_cons, List.singleton_append]
    by_cases hstar : c = '*'
    · subst hstar
      have hhead : t.head? ≠ some '*' := by
        intro hhead
        obtain ⟨u, rfl⟩ := List.head?_eq_some_iff.mp hhead
        exact h.noStars (List.prefix_append ['*', '*'] u).isInfix
      rw [compileFrom_of_star hhead, ih]
      exact congrArg Except.ok (hnext tokens)
    · have hbracket : c ≠ '[' := by
        rintro rfl
        exact h.noBracket List.mem_cons_self
      rw [compileFrom_of_char hstar hbracket, ih, ← Token.ofChar_of_ne hstar]
      exact congrArg Except.ok (hnext tokens)

theorem IsPlain.compile {t : Text} (h : IsPlain t) :
    Glob.compile t = .ok (t.map Token.ofChar) := h.compileFrom 0 none []

theorem isMatch_map_ofChar_iff (t u : Text) :
    isMatch (t.map Token.ofChar) u = true ↔ Fills (t.map Token.ofChar) u := by
  refine isMatch_iff_fills (fun hmem => ?_) u
  obtain ⟨c, -, hc⟩ := List.mem_map.mp hmem
  exact Token.ofChar_ne_directories c hc

end StyleAudit.Glob
