import StyleAudit.Proofs.Css.Cutting

/-!
# Runs that end outside brackets

`valuesUntil` reads a run of lexemes up to the first token outside all brackets that its
`stop` accepts.  Whether it finds that token depends on what comes after the run only through
the brackets: if none is open behind the run (`nestingOf`), then the same run is read in front
of anything at which a run ends (`valuesUntil_append_of_endsHere`), and its last lexeme is
neither blank nor opens a bracket (`ends_valuesUntil`).

In a text that leaves no bracket open, every run is of this kind, and what is left behind it
leaves no bracket open either (`nestingOf_valuesUntil`).  The inside of a block is read as if
no bracket were open, although the brace in front of it is; that the closing brace is found
all the same is `valuesUntil_block`, and that the block can be read again from the text of its
inside is `blockAhead_block`.
-/

namespace StyleAudit.Css

/-! ## The brackets open behind a run -/

/-- The brackets that are open behind a run, innermost first, if those of `stack` are open in
front of it. -/
def nestingOf (stack : List Bracket) (ls : List Lexeme) : List Bracket :=
  ls.foldl (fun stack l => l.token.nesting stack) stack

@[simp] theorem nestingOf_nil (stack : List Bracket) : nestingOf stack [] = stack := rfl

@[simp] theorem nestingOf_cons (stack : List Bracket) (l : Lexeme) (ls : List Lexeme) :
    nestingOf stack (l :: ls) = nestingOf (l.token.nesting stack) ls := rfl

theorem nestingOf_append (stack : List Bracket) (ls ms : List Lexeme) :
    nestingOf stack (ls ++ ms) = nestingOf (nestingOf stack ls) ms := List.foldl_append

theorem Lexeme.nesting_of_isBlank {l : Lexeme} (h : l.isBlank = true) (stack : List Bracket) :
    l.token.nesting stack = stack := by
  cases htoken : l.token with
  | space | comment => rfl
  | _ => rw [Lexeme.isBlank, htoken] at h; cases h

theorem nestingOf_skipBlanks (stack : List Bracket) (ls : List Lexeme) :
    nestingOf stack (skipBlanks ls) = nestingOf stack ls := by
  induction ls with
  | nil => rfl
  | cons l ls ih =>
    rw [skipBlanks] at ih ⊢
    by_cases hblank : l.isBlank = true
    · rw [List.dropWhile_cons_of_pos hblank, nestingOf_cons, Lexeme.nesting_of_isBlank hblank, ih]
    · rw [List.dropWhile_cons_of_neg hblank]

/-- A token behind which no bracket is open opens none. -/
theorem Token.opens?_of_nesting_eq_nil {token : Token} {stack : List Bracket}
    (h : token.nesting stack = []) : token.opens? = none := by
  cases token with
  | function | opening => cases h
  | _ => rfl

/-! ## Where a run ends -/

section Ends

variable {stop : Token → Bool}

theorem endsHere_cons_of_isBlank {l : Lexeme} (h : l.isBlank = true) (ls : List Lexeme) :
    endsHere stop (l :: ls) = endsHere stop ls := by
  rw [endsHere, endsHere, skipBlanks, skipBlanks, List.dropWhile_cons_of_pos h]

theorem endsHere_cons_of_not_isBlank {l : Lexeme} (h : ¬ l.isBlank = true) (ls : List Lexeme) :
    endsHere stop (l :: ls) = stop l.token := by
  rw [endsHere, skipBlanks, List.dropWhile_cons_of_neg h]

/-- At the end of a run only blanks stand before the token that ends it. -/
theorem endsHere_valuesUntil (stop : Token → Bool) (stack : List Bracket) (ls : List Lexeme) :
    endsHere stop (valuesUntil stop stack ls).2 = true := by
  induction ls generalizing stack with
  | nil => rfl
  | cons l ls ih =>
    rw [valuesUntil]
    split
    next h => exact (Bool.and_eq_true_iff.mp h).2
    next => exact ih _

/-- A run that something is left behind leaves no bracket open. -/
theorem nestingOf_valuesUntil_of_ne_nil {stack : List Bracket} {ls : List Lexeme}
    (h : (valuesUntil stop stack ls).2 ≠ []) :
    nestingOf stack (valuesUntil stop stack ls).1 = [] := by
  induction ls generalizing stack with
  | nil => exact absurd rfl h
  | cons l ls ih =>
    rw [valuesUntil] at h ⊢
    split
    next hstop => exact List.isEmpty_iff.mp (Bool.and_eq_true_iff.mp hstop).1
    next hstop =>
      rw [if_neg hstop] at h
      exact ih h

/-- **In a text that leaves no bracket open** neither a run nor what is left behind it leaves
one open. -/
theorem nestingOf_valuesUntil (stop : Token → Bool) {stack : List Bracket} {ls : List Lexeme}
    (h : nestingOf stack ls = []) :
    nestingOf stack (valuesUntil stop stack ls).1 = [] ∧
      nestingOf [] (valuesUntil stop stack ls).2 = [] := by
  have happend := valuesUntil_append stop stack ls
  have hrun : nestingOf stack (valuesUntil stop stack ls).1 = [] := by
    by_cases hrest : (valuesUntil stop stack ls).2 = []
    · rw [hrest, List.append_nil] at happend
      rwa [happend]
    · exact nestingOf_valuesUntil_of_ne_nil hrest
  refine ⟨hrun, ?_⟩
  rw [← happend, nestingOf_append, hrun] at h
  exact h

/-- The last lexeme of a run is neither blank nor opens a bracket, if no bracket is open
behind it. -/
theorem ends_valuesUntil {stack : List Bracket} {ls : List Lexeme}
    (h : nestingOf stack (valuesUntil stop stack ls).1 = []) :
    ∀ l ∈ (valuesUntil stop stack ls).1.getLast?,
      l.isBlank = false ∧ l.token.opens? = none := by
  induction ls generalizing stack with
  | nil =>
    intro l hl
    cases hl
  | cons l ls ih =>
    rw [valuesUntil] at h ⊢
    split
    next =>
      intro m hm
      cases hm
    next hstop =>
      rw [if_neg hstop] at h
      simp only [nestingOf_cons] at h ⊢
      intro m hm
      cases hrun : (valuesUntil stop (l.token.nesting stack) ls).1 with
      | cons k run =>
        rw [hrun, List.getLast?_cons_cons, ← hrun] at hm
        exact ih h m hm
      | nil =>
        rw [hrun] at h hm
        obtain rfl : l = m := Option.some.inj hm
        refine ⟨?_, Token.opens?_of_nesting_eq_nil h⟩
        rw [Bool.eq_false_iff]
        intro hblank
        -- a blank in front of the end would not have been read
        have hends := endsHere_valuesUntil stop (l.token.nesting stack) ls
        have hls := valuesUntil_append stop (l.token.nesting stack) ls
        rw [hrun, List.nil_append] at hls
        rw [hls] at hends
        rw [nestingOf_nil, Lexeme.nesting_of_isBlank hblank] at h
        rw [h, endsHere_cons_of_isBlank hblank, hends] at hstop
        exact hstop rfl

/-- Where a run does not end, it does not end either when something else stands behind it. -/
theorem endsHere_append {ls : List Lexeme} (h : endsHere stop ls = false) (rest : List Lexeme) :
    endsHere stop ((valuesUntil stop [] ls).1 ++ rest) = false := by
  induction ls with
  | nil => cases h
  | cons l ls ih =>
    rw [valuesUntil, if_neg (by rw [h]; exact Bool.false_ne_true)]
    simp only [List.cons_append]
    by_cases hblank : l.isBlank = true
    · rw [endsHere_cons_of_isBlank hblank] at h ⊢
      rw [Lexeme.nesting_of_isBlank hblank]
      exact ih h
    · rw [endsHere_cons_of_not_isBlank hblank] at h ⊢
      exact h

theorem valuesUntil_of_endsHere {ls : List Lexeme}
    (h : endsHere stop ls = true) : valuesUntil stop [] ls = ([], ls) := by
  cases ls with
  | nil => rfl
  | cons l ls => rw [valuesUntil, h]; rfl

/-- **A run that leaves no bracket open is read again** in front of anything at which a run
ends. -/
theorem valuesUntil_append_of_endsHere {stack : List Bracket} {ls rest : List Lexeme}
    (h : nestingOf stack (valuesUntil stop stack ls).1 = [])
    (hrest : endsHere stop rest = true) :
    valuesUntil stop stack ((valuesUntil stop stack ls).1 ++ rest) =
      ((valuesUntil stop stack ls).1, rest) := by
  have hnil : valuesUntil stop [] rest = ([], rest) := valuesUntil_of_endsHere hrest
  induction ls generalizing stack with
  | nil =>
    obtain rfl : stack = [] := h
    exact hnil
  | cons l ls ih =>
    rw [valuesUntil] at h ⊢
    by_cases hstop : (stack.isEmpty && endsHere stop (l :: ls)) = true
    · rw [if_pos hstop, List.nil_append, List.isEmpty_iff.mp (Bool.and_eq_true_iff.mp hstop).1]
      exact hnil
    · rw [if_neg hstop] at h ⊢
      have hstop' : ¬ (stack.isEmpty &&
          endsHere stop (l :: ((valuesUntil stop (l.token.nesting stack) ls).1 ++ rest))) =
            true := by
        rw [Bool.and_eq_true_iff]
        rintro ⟨hempty, hends⟩
        obtain rfl := List.isEmpty_iff.mp hempty
        have hfalse : endsHere stop (l :: ls) = false := by simpa using hstop
        have happend := endsHere_append hfalse rest
        rw [valuesUntil, if_neg hstop] at happend
        rw [List.cons_append] at happend
        rw [hends] at happend
        cases happend
      rw [List.cons_append, valuesUntil, if_neg hstop']
      simp only [ih h]

end Ends

/-! ## Texts that can be cut anywhere -/

/-- The pieces of a text without escapes and without characters that are blank but no white
space, all of them whole. -/
structure Sound (ls : List Lexeme) : Prop where
  isPieces : pieces (Lexeme.sourceOf ls) = ls
  noEscape : '\\' ∉ Lexeme.sourceOf ls
  isSpace_of_isBlank : ∀ c ∈ Lexeme.sourceOf ls, isBlank c = true → isSpace c = true
  whole : ∀ l ∈ ls, l.isWhole = true

theorem Sound.suffix {ls ms : List Lexeme} (h : Sound ls) (hms : ms <:+ ls) : Sound ms := by
  obtain ⟨front, rfl⟩ := hms
  have hsub : ∀ c ∈ Lexeme.sourceOf ms, c ∈ Lexeme.sourceOf (front ++ ms) := by
    intro c hc
    rw [Lexeme.sourceOf_append]
    exact List.mem_append_right _ hc
  exact {
    isPieces := pieces_sourceOf_of_append h.isPieces
    noEscape := fun hmem => h.noEscape (hsub _ hmem)
    isSpace_of_isBlank := fun c hc => h.isSpace_of_isBlank c (hsub c hc)
    whole := fun l hl => h.whole l (List.mem_append_right _ hl) }

section Runs

variable {stop : Token → Bool} {stack : List Bracket} {ls : List Lexeme}

/-- A run that leaves no bracket open can be cut out. -/
theorem Sound.cuttable (h : Sound ls)
    (hnest : nestingOf stack (valuesUntil stop stack ls).1 = []) :
    Cuttable (valuesUntil stop stack ls).1 := by
  have happend := valuesUntil_append stop stack ls
  refine ⟨fun hmem => h.noEscape ?_, fun l hl => h.whole l ?_, ends_valuesUntil hnest⟩
  · rw [← happend, Lexeme.sourceOf_append]
    exact List.mem_append_left _ hmem
  · rw [← happend]
    exact List.mem_append_left _ hl

/-- **The text of a run** has the lexemes of the run, whatever stands apart behind it. -/
theorem Sound.pieces_run (h : Sound ls)
    (hstop : ∀ token, stop token = true → token.isEdge = true)
    (hnest : nestingOf stack (valuesUntil stop stack ls).1 = []) {d : Text}
    (hd : StandsApart d) :
    pieces (Lexeme.sourceOf (valuesUntil stop stack ls).1 ++ d) =
      (valuesUntil stop stack ls).1 ++ pieces d := by
  have happend := valuesUntil_append stop stack ls
  have hrest : pieces (Lexeme.sourceOf (valuesUntil stop stack ls).2) =
      (valuesUntil stop stack ls).2 := (h.suffix (valuesUntil_suffix stop stack ls)).isPieces
  have hends := endsHere_valuesUntil stop stack ls
  rw [← hrest] at hends
  refine pieces_sourceOf_append (h.cuttable hnest) (standsApart_of_endsHere hstop hends) hd ?_
  rw [← Lexeme.sourceOf_append, happend, hrest, happend]
  exact h.isPieces

/-- The text of a run that does not begin with white space is trimmed already. -/
theorem Sound.trim_run (h : Sound ls)
    (hnest : nestingOf stack (valuesUntil stop stack ls).1 = [])
    (hfirst : ∀ l ∈ ls.head?, l.token ≠ .space) :
    Text.trim (Lexeme.sourceOf (valuesUntil stop stack ls).1) =
      Lexeme.sourceOf (valuesUntil stop stack ls).1 := by
  have happend := valuesUntil_append stop stack ls
  have hmem : ∀ l ∈ (valuesUntil stop stack ls).1, l ∈ pieces (Lexeme.sourceOf ls) := by
    intro l hl
    rw [h.isPieces, ← happend]
    exact List.mem_append_left _ hl
  refine trim_sourceOf (h.cuttable hnest) hmem (fun c hc => h.isSpace_of_isBlank c ?_) ?_
  · rw [← happend, Lexeme.sourceOf_append]
    exact List.mem_append_left _ hc
  · intro l hl
    refine hfirst l ?_
    rw [← happend, List.head?_append, hl]
    rfl

end Runs

/-! ## Blocks -/

/-- A brace that is open in front of a run is open behind it, unless the run closes it. -/
theorem nesting_append_curly {token : Token} {stack : List Bracket}
    (h : stack ≠ [] ∨ token ≠ .closing .curly) :
    token.nesting (stack ++ [.curly]) = token.nesting stack ++ [.curly] := by
  cases token with
  | closing b =>
    cases stack with
    | nil =>
      cases b with
      | curly => exact (h.elim (fun h => h rfl) fun h => h rfl).elim
      | round | square => rfl
    | cons a stack => cases a <;> cases b <;> rfl
  | _ => rfl

/-- **The inside of a block ends at the brace that closes it**, and nothing is open there. -/
theorem valuesUntil_block {stack : List Bracket} {ls : List Lexeme}
    (h : nestingOf (stack ++ [.curly]) ls = []) :
    nestingOf stack (valuesUntil (· == .closing .curly) stack ls).1 = [] ∧
      nestingOf [] (skipBlanks (valuesUntil (· == .closing .curly) stack ls).2).tail = [] := by
  induction ls generalizing stack with
  | nil =>
    rw [nestingOf_nil] at h
    exact absurd h (by simp)
  | cons l ls ih =>
    rw [valuesUntil]
    by_cases hstop : (stack.isEmpty && endsHere (· == .closing .curly) (l :: ls)) = true
    · rw [if_pos hstop]
      obtain ⟨hempty, hends⟩ := Bool.and_eq_true_iff.mp hstop
      obtain rfl := List.isEmpty_iff.mp hempty
      refine ⟨rfl, ?_⟩
      rw [← nestingOf_skipBlanks] at h
      rw [endsHere] at hends
      cases hskip : skipBlanks (l :: ls) with
      | nil => rfl
      | cons e rest =>
        rw [hskip] at h hends
        have he : e.token = .closing .curly := by simpa using hends
        rw [nestingOf_cons, he] at h
        exact h
    · rw [if_neg hstop]
      have hnest : stack ≠ [] ∨ l.token ≠ .closing .curly := by
        by_contra hboth
        obtain ⟨rfl, htoken⟩ : stack = [] ∧ l.token = .closing .curly := by
          simpa [not_or] using hboth
        refine hstop ?_
        rw [endsHere_cons_of_not_isBlank (by rw [Lexeme.isBlank, htoken]; exact Bool.false_ne_true),
          htoken]
        rfl
      rw [nestingOf_cons, nesting_append_curly hnest] at h
      exact ih h

/-- **A block is read again from the text of its inside**, and nothing is open behind it. -/
theorem blockAhead_block {ls : List Lexeme} (h : Sound ls) (hnest : nestingOf [.curly] ls = [])
    (t : Text) :
    blockAhead (pieces ((blockAhead ls).1 ++ '\x7d' :: t)) = ((blockAhead ls).1, pieces t) := by
  obtain ⟨hrun, -⟩ := valuesUntil_block (show nestingOf ([] ++ [.curly]) ls = [] from hnest)
  have hedge : ∀ token : Token, (token == .closing .curly) = true → token.isEdge = true := by
    intro token htoken
    rw [beq_iff_eq.mp htoken]
    rfl
  have hd : StandsApart ('\x7d' :: t) := standsApart_cons.mpr (by decide)
  have hpieces := h.pieces_run hedge hrun hd
  have hends : endsHere (· == .closing .curly) (pieces ('\x7d' :: t)) = true := by
    rw [pieces_closeCurly]
    rfl
  have hread := valuesUntil_append_of_endsHere hrun hends
  simp only [blockAhead] at hpieces ⊢
  rw [hpieces, hread]
  simp only [pieces_closeCurly]
  rfl

theorem nestingOf_blockAhead {ls : List Lexeme} (h : nestingOf [.curly] ls = []) :
    nestingOf [] (blockAhead ls).2 = [] :=
  (valuesUntil_block (show nestingOf ([] ++ [.curly]) ls = [] from h)).2

end StyleAudit.Css
