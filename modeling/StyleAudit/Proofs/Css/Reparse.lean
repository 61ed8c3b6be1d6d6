import StyleAudit.Proofs.Css.Runs

/-!
# Reading what was written

`Rule.serialize` writes a rule on one line from the parts that reading has kept of it.  A rule
*reads back* (`Rule.ReadsBack`) when the text so written, whatever stands behind it, is read
as this rule first of all and then as what stands behind it is read alone.  So a list of rules
that read back is read again from what it is written as (`rulesFrom_serializeAll`).

That the rules of a text read back needs the text to be sound and to leave no bracket open.
The argument follows a rule from left to right.  Its head is a run that ends at a boundary,
and what is written behind it begins with one; so the head has the same lexemes as before and
ends at the same place (`Sound.pieces_run`, `valuesUntil_append_of_endsHere`).  The same
is true of the inside of its block.  Behind the head of a rule, and behind its block, the text
leaves no bracket open again, which carries the argument on to the next rule.
-/

namespace StyleAudit.Css

/-- Whether reading what the rule is written as gives the rule again, lines aside, and then
what stands behind it. -/
def Rule.ReadsBack (r : Rule) : Prop :=
  ∀ (eof : Place) (first : Bool) (t : Text),
    (rulesFrom eof first (pieces (r.serialize ++ t))).map Rule.unplaced =
      r.unplaced :: (rulesFrom eof false (pieces t)).map Rule.unplaced

/-! ## White space in front -/

theorem pieces_dropWhile_suffix (t : Text) : pieces (t.dropWhile isSpace) <:+ pieces t := by
  cases t with
  | nil => exact List.suffix_rfl
  | cons c t =>
    by_cases hc : isSpace c = true
    · rw [List.dropWhile_cons_of_pos hc, pieces_of_isSpace hc]
      exact List.suffix_cons _ _
    · have hkeep : (c :: t).dropWhile isSpace = c :: t := List.dropWhile_cons_of_neg hc
      exact ⟨[], by rw [hkeep, List.nil_append]⟩

theorem nestingOf_pieces_dropWhile (stack : List Bracket) (t : Text) :
    nestingOf stack (pieces (t.dropWhile isSpace)) = nestingOf stack (pieces t) := by
  cases t with
  | nil => rfl
  | cons c t =>
    by_cases hc : isSpace c = true
    · rw [List.dropWhile_cons_of_pos hc, pieces_of_isSpace hc]
      rfl
    · rw [List.dropWhile_cons_of_neg hc]

theorem token_head?_pieces_dropWhile (t : Text) :
    ∀ l ∈ (pieces (t.dropWhile isSpace)).head?, l.token ≠ .space := by
  intro l hl
  cases hdrop : t.dropWhile isSpace with
  | nil =>
    rw [hdrop, pieces_nil] at hl
    cases hl
  | cons c u =>
    rw [hdrop, pieces_cons] at hl
    cases hl
    rw [Ne, ahead_eq_space_iff]
    have hc := List.head?_dropWhile_not isSpace t
    rw [hdrop] at hc
    rw [show isSpace c = false from hc]
    exact Bool.false_ne_true

section AtRule

variable {keyword : Text} {line : Nat}

theorem atRuleAhead_of_space {l : Lexeme} (htoken : l.token = .space)
    (htext : ∀ c ∈ l.text, isSpace c = true) (ls : List Lexeme) :
    atRuleAhead keyword line (l :: ls) = atRuleAhead keyword line ls := by
  have hblank : l.isBlank = true := by
    rw [Lexeme.isBlank, htoken]
    rfl
  by_cases hends : endsHere endsHead ls = true
  · have hends' : endsHere endsHead (l :: ls) = true := by
      rw [endsHere_cons_of_isBlank hblank, hends]
    simp only [atRuleAhead, valuesUntil_of_endsHere hends, valuesUntil_of_endsHere hends',
      skipBlanks, List.dropWhile_cons_of_pos hblank]
  · have hstop : ¬ (([] : List Bracket).isEmpty && endsHere endsHead (l :: ls)) = true := by
      rw [endsHere_cons_of_isBlank hblank]
      exact hends
    simp only [atRuleAhead]
    rw [valuesUntil, if_neg hstop, Lexeme.nesting_of_isBlank hblank]
    simp only [Lexeme.sourceOf_cons]
    rw [Text.trim_append_of_isBlank fun c hc => isBlank_of_isSpace (htext c hc)]

theorem atRuleAhead_pieces_dropWhile (t : Text) :
    atRuleAhead keyword line (pieces (t.dropWhile isSpace)) =
      atRuleAhead keyword line (pieces t) := by
  cases t with
  | nil => rfl
  | cons c t =>
    by_cases hc : isSpace c = true
    · rw [List.dropWhile_cons_of_pos hc, pieces_of_isSpace hc, atRuleAhead_of_space rfl]
      intro x hx
      rcases List.mem_cons.mp hx with rfl | hx
      · exact hc
      · exact List.mem_takeWhile_imp hx
    · rw [List.dropWhile_cons_of_neg hc]

/-- White space behind the keyword of an at-rule does not matter. -/
theorem atRuleAhead_pieces_of_isSpace {c : Char} (hc : isSpace c = true) (t : Text) :
    atRuleAhead keyword line (pieces (c :: t)) = atRuleAhead keyword line (pieces t) := by
  rw [← atRuleAhead_pieces_dropWhile (c :: t), List.dropWhile_cons_of_pos hc,
    atRuleAhead_pieces_dropWhile]

/-- An at-rule ends in a block, or else at a semicolon or at the end of the text. -/
theorem atRuleAhead_cases (keyword : Text) (line : Nat) (ls : List Lexeme) :
    (∃ e rest, skipBlanks (valuesUntil endsHead [] ls).2 = e :: rest ∧
        e.token = .opening .curly ∧
          atRuleAhead keyword line ls =
            (⟨keyword, Text.trim (Lexeme.sourceOf (valuesUntil endsHead [] ls).1),
              some (blockAhead rest).1, line⟩, (blockAhead rest).2)) ∨
      ((∀ e ∈ (skipBlanks (valuesUntil endsHead [] ls).2).head?, e.token = .semicolon) ∧
        atRuleAhead keyword line ls =
          (⟨keyword, Text.trim (Lexeme.sourceOf (valuesUntil endsHead [] ls).1), none, line⟩,
            (skipBlanks (valuesUntil endsHead [] ls).2).tail)) := by
  have hends := endsHere_valuesUntil endsHead [] ls
  simp only [atRuleAhead]
  rw [endsHere] at hends
  cases hskip : skipBlanks (valuesUntil endsHead [] ls).2 with
  | nil =>
    refine .inr ⟨?_, rfl⟩
    intro e he
    cases he
  | cons e rest =>
    rw [hskip] at hends
    simp only [endsHead, Bool.or_eq_true, beq_iff_eq] at hends
    by_cases hopen : opensBlock e.token = true
    · refine .inl ⟨e, rest, rfl, by simpa [opensBlock] using hopen, ?_⟩
      simp only [if_pos hopen]
    · refine .inr ⟨?_, ?_⟩
      · rintro m hm
        obtain rfl : e = m := Option.some.inj hm
        refine hends.resolve_right fun h => hopen ?_
        rw [h]
        rfl
      · simp only [if_neg hopen, List.tail_cons]

/-- What is passed over is what an at-rule would take. -/
theorem passOver_eq_atRuleAhead (keyword : Text) (line : Nat) (ls : List Lexeme) :
    passOver endsHead ls = (atRuleAhead keyword line ls).2 := by
  simp only [passOver, atRuleAhead]
  cases skipBlanks (valuesUntil endsHead [] ls).2 with
  | nil => rfl
  | cons e rest =>
    simp only
    split <;> rfl

end AtRule

/-! ## Behind a head and behind a block -/

/-- Behind the brace that ends a head, that brace is open and nothing else. -/
theorem nestingOf_behind_brace {stop : Token → Bool} {ls : List Lexeme}
    (hnest : nestingOf [] ls = []) {e : Lexeme} {rest : List Lexeme}
    (hskip : skipBlanks (valuesUntil stop [] ls).2 = e :: rest)
    (he : e.token = .opening .curly) : nestingOf [.curly] rest = [] := by
  have h := (nestingOf_valuesUntil stop hnest).2
  rw [← nestingOf_skipBlanks, hskip, nestingOf_cons, he] at h
  exact h

/-- What stands behind the token that ends a head is left of the text. -/
theorem suffix_of_skipBlanks_valuesUntil {stop : Token → Bool} {ls : List Lexeme} {e : Lexeme}
    {rest : List Lexeme} (hskip : skipBlanks (valuesUntil stop [] ls).2 = e :: rest) :
    rest <:+ ls := by
  have h := skipBlanks_valuesUntil_suffix stop [] ls
  rw [hskip] at h
  exact (List.suffix_cons e rest).trans h

/-- An at-rule leaves no bracket open. -/
theorem nestingOf_atRuleAhead (keyword : Text) (line : Nat) {ls : List Lexeme}
    (hnest : nestingOf [] ls = []) : nestingOf [] (atRuleAhead keyword line ls).2 = [] := by
  rcases atRuleAhead_cases keyword line ls with ⟨e, rest, hskip, he, heq⟩ | ⟨hhead, heq⟩
  · rw [heq]
    exact nestingOf_blockAhead (nestingOf_behind_brace hnest hskip he)
  · have h := (nestingOf_valuesUntil endsHead hnest).2
    rw [heq]
    rw [← nestingOf_skipBlanks] at h
    cases hskip : skipBlanks (valuesUntil endsHead [] ls).2 with
    | nil => rfl
    | cons e rest =>
      rw [hskip] at h hhead
      rw [nestingOf_cons, hhead e rfl] at h
      exact h

theorem isEdge_of_endsHead {token : Token} (h : endsHead token = true) : token.isEdge = true := by
  simp only [endsHead, Bool.or_eq_true, beq_iff_eq] at h
  rcases h with rfl | rfl <;> rfl

theorem isEdge_of_opensBlock {token : Token} (h : opensBlock token = true) :
    token.isEdge = true := by
  rw [opensBlock, beq_iff_eq] at h
  rw [h]
  rfl

/-- **The head of a rule is read again** in front of what ends a head. -/
theorem Sound.read_head {stop : Token → Bool} {ls : List Lexeme} (hsound : Sound ls)
    (hstop : ∀ token, stop token = true → token.isEdge = true) (hnest : nestingOf [] ls = [])
    (hfirst : ∀ l ∈ ls.head?, l.token ≠ .space) {d : Text} (hd : StandsApart d)
    (hends : endsHere stop (pieces d) = true) :
    pieces (Text.trim (Lexeme.sourceOf (valuesUntil stop [] ls).1) ++ d) =
        (valuesUntil stop [] ls).1 ++ pieces d ∧
      valuesUntil stop [] ((valuesUntil stop [] ls).1 ++ pieces d) =
        ((valuesUntil stop [] ls).1, pieces d) := by
  have hrun := (nestingOf_valuesUntil stop hnest).1
  rw [hsound.trim_run hrun hfirst]
  exact ⟨hsound.pieces_run hstop hrun hd, valuesUntil_append_of_endsHere hrun hends⟩

/-! ## At-rules -/

section AtRuleReadsBack

variable {keyword : Text} {line : Nat} {ls : List Lexeme}
  (hk : ∀ c ∈ keyword, isNameChar c = true) (hstart : nameStartsAt keyword = true)
  (hcharset : keyword.sameName "charset".toList = false)

include hk hstart hcharset

/-- The keyword of an at-rule and the space behind it are read off. -/
theorem rulesFrom_atKeyword (eof : Place) (first : Bool) (condition : Text) {d : Text}
    (hd : StandsApart d) :
    rulesFrom eof first
        (pieces ('@' :: keyword ++ (if condition.isEmpty then [] else ' ' :: condition) ++ d)) =
      .atRule (atRuleAhead keyword Place.start.line (pieces (condition ++ d))).1 ::
        rulesFrom eof false
          (atRuleAhead keyword Place.start.line (pieces (condition ++ d))).2 := by
  have hfirst : (first && keyword.sameName "charset".toList) = false := by
    rw [hcharset, Bool.and_false]
  cases condition with
  | nil =>
    have htext : '@' :: keyword ++ (if ([] : Text).isEmpty then [] else [' ']) ++ d =
        '@' :: (keyword ++ d) := by simp
    rw [htext, pieces_atKeyword hk hstart hd, rulesFrom_of_atKeyword rfl hfirst]
    rfl
  | cons c condition =>
    have htext : '@' :: keyword ++
        (if (c :: condition).isEmpty then [] else ' ' :: c :: condition) ++ d =
          '@' :: (keyword ++ (' ' :: (c :: condition ++ d))) := by simp
    have hspace : StandsApart (' ' :: (c :: condition ++ d)) :=
      standsApart_cons.mpr (by decide)
    rw [htext, pieces_atKeyword hk hstart hspace, rulesFrom_of_atKeyword rfl hfirst,
      atRuleAhead_pieces_of_isSpace rfl]

/-- An at-rule reads back, if no white space stands behind its keyword. -/
theorem readsBack_atRule_of_head (line : Nat) (hsound : Sound ls) (hnest : nestingOf [] ls = [])
    (hfirst : ∀ l ∈ ls.head?, l.token ≠ .space) :
    Rule.ReadsBack (.atRule (atRuleAhead keyword line ls).1) := by
  intro eof first t
  rcases atRuleAhead_cases keyword line ls with ⟨e, rest, hskip, he, heq⟩ | ⟨-, heq⟩
  · have hblock := blockAhead_block (hsound.suffix (suffix_of_skipBlanks_valuesUntil hskip))
      (nestingOf_behind_brace hnest hskip he) t
    have hd : StandsApart (' ' :: '\x7b' :: ((blockAhead rest).1 ++ '\x7d' :: t)) :=
      standsApart_cons.mpr (by decide)
    obtain ⟨hpieces, hread⟩ := hsound.read_head (fun _ => isEdge_of_endsHead) hnest hfirst hd
      (by rw [pieces_block]; rfl)
    have hagain : atRuleAhead keyword Place.start.line ((valuesUntil endsHead [] ls).1 ++
        pieces (' ' :: '\x7b' :: ((blockAhead rest).1 ++ '\x7d' :: t))) =
          (⟨keyword, Text.trim (Lexeme.sourceOf (valuesUntil endsHead [] ls).1),
            some (blockAhead rest).1, Place.start.line⟩, pieces t) := by
      simp only [atRuleAhead, hread, skipBlanks_pieces_block, hblock]
      rfl
    rw [heq]
    generalize Text.trim (Lexeme.sourceOf (valuesUntil endsHead [] ls).1) = condition
      at hpieces hagain ⊢
    have htext : Rule.serialize (.atRule ⟨keyword, condition, some (blockAhead rest).1, line⟩) ++
        t = '@' :: keyword ++ (if condition.isEmpty then [] else ' ' :: condition) ++
          (' ' :: '\x7b' :: ((blockAhead rest).1 ++ '\x7d' :: t)) := by
      simp [Rule.serialize]
    rw [htext, rulesFrom_atKeyword hk hstart hcharset eof first condition hd, hpieces, hagain]
    rfl
  · have hd : StandsApart (';' :: t) := standsApart_cons.mpr (by decide)
    obtain ⟨hpieces, hread⟩ := hsound.read_head (fun _ => isEdge_of_endsHead) hnest hfirst hd
      (by rw [pieces_semicolon]; rfl)
    have hagain : atRuleAhead keyword Place.start.line
        ((valuesUntil endsHead [] ls).1 ++ pieces (';' :: t)) =
          (⟨keyword, Text.trim (Lexeme.sourceOf (valuesUntil endsHead [] ls).1), none,
            Place.start.line⟩, pieces t) := by
      simp only [atRuleAhead, hread]
      rw [pieces_semicolon]
      rfl
    rw [heq]
    generalize Text.trim (Lexeme.sourceOf (valuesUntil endsHead [] ls).1) = condition
      at hpieces hagain ⊢
    have htext : Rule.serialize (.atRule ⟨keyword, condition, none, line⟩) ++ t =
        '@' :: keyword ++ (if condition.isEmpty then [] else ' ' :: condition) ++ (';' :: t) := by
      simp [Rule.serialize]
    rw [htext, rulesFrom_atKeyword hk hstart hcharset eof first condition hd, hpieces, hagain]
    rfl

/-- **An at-rule reads back.** -/
theorem readsBack_atRule (hsound : Sound ls) (hnest : nestingOf [] ls = []) :
    Rule.ReadsBack (.atRule (atRuleAhead keyword line ls).1) := by
  have hsuffix : pieces ((Lexeme.sourceOf ls).dropWhile isSpace) <:+ ls := by
    conv_rhs => rw [← hsound.isPieces]
    exact pieces_dropWhile_suffix _
  have hnest' : nestingOf [] (pieces ((Lexeme.sourceOf ls).dropWhile isSpace)) = [] := by
    rw [nestingOf_pieces_dropWhile, hsound.isPieces, hnest]
  have h := readsBack_atRule_of_head hk hstart hcharset line (hsound.suffix hsuffix)
    hnest' (token_head?_pieces_dropWhile _)
  rwa [atRuleAhead_pieces_dropWhile, hsound.isPieces] at h

end AtRuleReadsBack

/-! ## Qualified rules -/

/-- What a qualified rule is made of, if there is one. -/
theorem qualifiedAhead_eq_ok {eof : Place} {ls : List Lexeme} {r : QualifiedRule}
    (h : (qualifiedAhead false eof ls).1 = .ok r) :
    customPropertyAhead ls = false ∧
      ∃ e rest, skipBlanks (valuesUntil opensBlock [] ls).2 = e :: rest ∧
        e.token = .opening .curly ∧
          r.selector = Text.trim (Lexeme.sourceOf (valuesUntil opensBlock [] ls).1) ∧
            r.body = (blockAhead rest).1 ∧
              (qualifiedAhead false eof ls).2 = (blockAhead rest).2 := by
  simp only [qualifiedAhead] at h ⊢
  by_cases hcustom : customPropertyAhead ls = true
  · rw [if_pos hcustom] at h
    cases h
  · rw [if_neg hcustom] at h ⊢
    refine ⟨by simpa using hcustom, ?_⟩
    simp only [Bool.false_eq_true, if_false] at h ⊢
    cases hskip : skipBlanks (valuesUntil opensBlock [] ls).2 with
    | nil =>
      rw [hskip] at h
      cases h
    | cons e rest =>
      rw [hskip] at h
      simp only at h ⊢
      by_cases hopen : opensBlock e.token = true
      · rw [if_pos hopen] at h ⊢
        cases h
        exact ⟨e, rest, rfl, by simpa [opensBlock] using hopen, rfl, rfl, rfl⟩
      · rw [if_neg hopen] at h
        cases h

/-- Whether a run begins like a custom property does not change if a brace follows it. -/
theorem customPropertyAhead_append {run rest rest' : List Lexeme} {e : Lexeme}
    {after : List Lexeme} (h : customPropertyAhead (run ++ rest) = false)
    (hskip : skipBlanks rest' = e :: after) (he : e.token = .opening .curly) :
    customPropertyAhead (run ++ rest') = false := by
  rw [Bool.eq_false_iff] at h ⊢
  intro hcustom
  cases run with
  | nil =>
    cases rest' with
    | nil => cases hcustom
    | cons l rest' =>
      obtain ⟨⟨name, hl⟩, -⟩ := customPropertyAhead_cons.mp hcustom
      have hblank : ¬ l.isBlank = true := by
        rw [Lexeme.isBlank, hl]
        exact Bool.false_ne_true
      rw [skipBlanks, List.dropWhile_cons_of_neg hblank] at hskip
      cases hskip
      rw [hl] at he
      cases he
  | cons l run =>
    rw [List.cons_append] at h hcustom
    obtain ⟨hl, c, after', hc, hcolon⟩ := customPropertyAhead_cons.mp hcustom
    refine h (customPropertyAhead_cons.mpr ⟨hl, ?_⟩)
    rw [skipBlanks, List.dropWhile_append] at hc ⊢
    cases hrun : run.dropWhile Lexeme.isBlank with
    | nil =>
      -- nothing but blanks stands in front of the brace, which is no colon
      rw [hrun] at hc
      have hc' : skipBlanks rest' = c :: after' := hc
      rw [hskip] at hc'
      cases hc'
      rw [he] at hcolon
      cases hcolon
    | cons m run' =>
      rw [hrun] at hc
      cases hc
      exact ⟨c, run' ++ rest, rfl, hcolon⟩

section QualifiedReadsBack

variable {eof : Place} {ls : List Lexeme} {r : QualifiedRule}

/-- A qualified rule leaves no bracket open. -/
theorem nestingOf_qualifiedAhead (hnest : nestingOf [] ls = [])
    (h : (qualifiedAhead false eof ls).1 = .ok r) :
    nestingOf [] (qualifiedAhead false eof ls).2 = [] := by
  obtain ⟨-, e, rest, hskip, he, -, -, hrest⟩ := qualifiedAhead_eq_ok h
  rw [hrest]
  exact nestingOf_blockAhead (nestingOf_behind_brace hnest hskip he)

/-- The head of a qualified rule is read again in front of a block that is read again. -/
theorem qualifiedAhead_head (h : (qualifiedAhead false eof ls).1 = .ok r)
    {d rest' after : List Lexeme} {e' : Lexeme}
    (hread : valuesUntil opensBlock [] ((valuesUntil opensBlock [] ls).1 ++ d) =
      ((valuesUntil opensBlock [] ls).1, d))
    (hskip : skipBlanks d = e' :: rest') (he : e'.token = .opening .curly)
    (hblock : blockAhead rest' = (r.body, after)) (eof' : Place) :
    unplacedResult
        (qualifiedAhead false eof' ((valuesUntil opensBlock [] ls).1 ++ d)).1 =
          .ok r.unplaced ∧
      (qualifiedAhead false eof' ((valuesUntil opensBlock [] ls).1 ++ d)).2 = after := by
  obtain ⟨hcustom, -, -, -, -, hselector, -, -⟩ := qualifiedAhead_eq_ok h
  have hopen : opensBlock e'.token = true := by
    rw [he]
    rfl
  rw [← valuesUntil_append opensBlock [] ls] at hcustom
  have hcustom' := customPropertyAhead_append hcustom hskip he
  simp only [qualifiedAhead, hcustom', Bool.false_eq_true, if_false, hread, hskip, hopen, if_true,
    hblock, ← hselector, and_true]
  rfl

/-- **A qualified rule reads back.** -/
theorem readsBack_qualified {l : Lexeme} (hsound : Sound (l :: ls))
    (hnest : nestingOf [] (l :: ls) = []) (hsep : separatesRules l.token = false)
    (hk : ∀ keyword, l.token ≠ .atKeyword keyword)
    (h : (qualifiedAhead false eof (l :: ls)).1 = .ok r) :
    Rule.ReadsBack (.qualified r) := by
  intro eof' first t
  obtain ⟨-, e, rest, hskip, he, hselector, hbody, -⟩ := qualifiedAhead_eq_ok h
  have hfirst : ∀ m ∈ (l :: ls).head?, m.token ≠ .space := by
    intro m hm
    obtain rfl : l = m := Option.some.inj hm
    intro hspace
    rw [hspace] at hsep
    cases hsep
  have hblock : blockAhead (pieces (r.body ++ '\x7d' :: t)) = (r.body, pieces t) := by
    rw [hbody]
    exact blockAhead_block (hsound.suffix (suffix_of_skipBlanks_valuesUntil hskip))
      (nestingOf_behind_brace hnest hskip he) t
  have htext : Rule.serialize (.qualified r) ++ t =
      r.selector ++ (' ' :: '\x7b' :: (r.body ++ '\x7d' :: t)) := by
    simp [Rule.serialize]
  rw [htext]
  cases hrun : (valuesUntil opensBlock [] (l :: ls)).1 with
  | nil =>
    -- without a selector, the space in front of the brace belongs to no rule
    have hempty : r.selector = [] := by
      rw [hselector, hrun]
      rfl
    have hends : endsHere opensBlock (pieces ('\x7b' :: (r.body ++ '\x7d' :: t))) = true := by
      rw [pieces_openCurly]
      rfl
    have hread := valuesUntil_of_endsHere hends
    have hagain := qualifiedAhead_head h (d := pieces ('\x7b' :: (r.body ++ '\x7d' :: t)))
      (by rw [hrun]; exact hread) (by rw [pieces_openCurly]; rfl) rfl hblock eof'
    rw [hrun, List.nil_append, pieces_openCurly] at hagain
    rw [hempty, List.nil_append, rulesFrom_pieces_of_isSpace rfl, pieces_openCurly,
      rulesFrom_of_qualified rfl (fun _ => Token.noConfusion), List.map_cons,
      Rule.unplaced_ofResult, hagain.1, hagain.2]
    rfl
  | cons m run =>
    have hd : StandsApart (' ' :: '\x7b' :: (r.body ++ '\x7d' :: t)) :=
      standsApart_cons.mpr (by decide)
    obtain ⟨hpieces, hread⟩ := hsound.read_head (fun _ => isEdge_of_opensBlock) hnest hfirst hd
      (by rw [pieces_block]; rfl)
    have hagain := qualifiedAhead_head h hread (skipBlanks_pieces_block _) rfl hblock eof'
    have hm : l = m := by
      have happend := valuesUntil_append opensBlock [] (l :: ls)
      rw [hrun] at happend
      exact (List.cons.inj happend).1.symm
    subst hm
    rw [hselector, hpieces]
    rw [hrun, List.cons_append] at hagain ⊢
    rw [rulesFrom_of_qualified hsep hk, List.map_cons, Rule.unplaced_ofResult, hagain.1, hagain.2]
    rfl

end QualifiedReadsBack

/-! ## Lists of rules -/

theorem nesting_of_separatesRules {token : Token} (h : separatesRules token = true)
    (stack : List Bracket) : token.nesting stack = stack := by
  cases token with
  | space | comment | commentOpen | commentClose => rfl
  | _ => cases h

/-- The keyword of an at-rule in a sound text is a name without escapes. -/
theorem Sound.isName_keyword {l : Lexeme} {ls : List Lexeme} {keyword : Text}
    (hsound : Sound (l :: ls)) (hk : l.token = .atKeyword keyword) :
    (∀ c ∈ keyword, isNameChar c = true) ∧ nameStartsAt keyword = true := by
  obtain ⟨c, v, s, htext, -, hahead, -, -⟩ := exists_of_pieces_eq_cons hsound.isPieces
  have htoken : (Token.ahead c (v ++ s)).1 = .atKeyword keyword := by
    rw [hahead]
    exact hk
  obtain ⟨-, hstart, rfl⟩ := eq_of_ahead_eq_atKeyword htoken
  have hescape : '\\' ∉ v ++ s := by
    intro hmem
    refine hsound.noEscape ?_
    rw [htext]
    exact List.mem_cons_of_mem _ hmem
  exact ⟨isNameChar_of_mem_nameAhead hescape, nameStartsAt_nameAhead hescape hstart⟩

theorem keyword_atRuleAhead (keyword : Text) (line : Nat) (ls : List Lexeme) :
    (atRuleAhead keyword line ls).1.keyword = keyword := by
  rcases atRuleAhead_cases keyword line ls with ⟨e, rest, -, -, heq⟩ | ⟨-, heq⟩
  · rw [heq]
  · rw [heq]

/-- **The rules of a sound text read back**, if it leaves no bracket open. -/
theorem readsBack_of_mem_rulesFrom {eof : Place} {first : Bool} {ls : List Lexeme}
    (hsound : Sound ls) (hnest : nestingOf [] ls = [])
    (hissue : ∀ issue, Rule.error issue ∉ rulesFrom eof first ls)
    (hcharset : ∀ rule, Rule.atRule rule ∈ rulesFrom eof first ls →
      rule.isNamed "charset".toList = false) :
    ∀ r ∈ rulesFrom eof first ls, r.ReadsBack := by
  fun_induction rulesFrom eof first ls with
  | case1 =>
    intro r hr
    cases hr
  | case2 first l ls hsep ih =>
    refine ih (hsound.suffix (List.suffix_cons l ls)) ?_ hissue hcharset
    rw [nestingOf_cons, nesting_of_separatesRules hsep] at hnest
    exact hnest
  | case3 first l ls hsep keyword hk hfirst ih =>
    have hnest' : nestingOf [] ls = [] := by
      rw [nestingOf_cons, hk] at hnest
      exact hnest
    refine ih (hsound.suffix ((passOver_suffix _ _).trans ?_)) ?_ hissue hcharset
    · exact (List.tail_suffix ls).trans (List.suffix_cons l ls)
    · rw [passOver_eq_atRuleAhead keyword 1]
      exact nestingOf_atRuleAhead keyword 1 hnest'
  | case4 first l ls hsep keyword hk hfirst r ih =>
    have hnest' : nestingOf [] ls = [] := by
      rw [nestingOf_cons, hk] at hnest
      exact hnest
    have hls : Sound ls := hsound.suffix (List.suffix_cons l ls)
    have hrest := ih (hls.suffix (atRuleAhead_suffix keyword l.start.line ls))
      (nestingOf_atRuleAhead keyword l.start.line hnest')
      (fun issue h => hissue issue (List.mem_cons_of_mem _ h))
      (fun rule h => hcharset rule (List.mem_cons_of_mem _ h))
    obtain ⟨hname, hstart⟩ := hsound.isName_keyword hk
    intro rule hrule
    rcases List.mem_cons.mp hrule with rfl | hrule
    · refine readsBack_atRule hname hstart ?_ hls hnest'
      have hnamed := hcharset r.1 List.mem_cons_self
      rwa [AtRule.isNamed, keyword_atRuleAhead] at hnamed
    · exact hrest rule hrule
  | case5 first l ls hsep r hk ih =>
    have hsep' : separatesRules l.token = false := by simpa using hsep
    cases hr : r.1 with
    | error issue =>
      refine absurd ?_ (hissue issue)
      rw [hr]
      exact List.mem_cons_self
    | ok q =>
      have hrest := ih
        (hsound.suffix ((qualifiedAhead_suffix false eof (l :: ls)).trans (List.suffix_cons l ls)))
        (nestingOf_qualifiedAhead hnest hr)
        (fun issue h => hissue issue (List.mem_cons_of_mem _ h))
        (fun rule h => hcharset rule (List.mem_cons_of_mem _ h))
      intro rule hrule
      rcases List.mem_cons.mp hrule with rfl | hrule
      · exact readsBack_qualified hsound hnest hsep' hk hr
      · exact hrest rule hrule

/-- Rules that are written one below the other are read one after the other. -/
theorem serializeAll_cons {r : Rule} (hr : r.serialize ≠ []) {rules : List Rule}
    (hrules : ∀ r ∈ rules, r.serialize ≠ []) :
    Rule.serializeAll (r :: rules) =
      r.serialize ++ (if rules.isEmpty then [] else '\n' :: Rule.serializeAll rules) := by
  have hfilter : ∀ rules : List Rule, (∀ r ∈ rules, r.serialize ≠ []) →
      (rules.map Rule.serialize).filter (fun t => !t.isEmpty) = rules.map Rule.serialize := by
    intro rules hrules
    refine List.filter_eq_self.mpr fun t ht => ?_
    obtain ⟨r, hr, rfl⟩ := List.mem_map.mp ht
    simpa using hrules r hr
  have hall : ∀ m ∈ r :: rules, m.serialize ≠ [] := by
    intro m hm
    rcases List.mem_cons.mp hm with rfl | hm
    · exact hr
    · exact hrules m hm
  rw [Rule.serializeAll, Rule.serializeAll, hfilter _ hall, hfilter _ hrules]
  cases rules with
  | nil => simp
  | cons m rules => simp

/-- **Rules that read back are read again** from what they are written as. -/
theorem rulesFrom_serializeAll {rules : List Rule} (hback : ∀ r ∈ rules, r.ReadsBack)
    (hne : ∀ r ∈ rules, r.serialize ≠ []) (eof : Place) (first : Bool) :
    (rulesFrom eof first (pieces (Rule.serializeAll rules))).map Rule.unplaced =
      rules.map Rule.unplaced := by
  induction rules generalizing first with
  | nil =>
    rw [show Rule.serializeAll [] = [] from rfl, pieces_nil, rulesFrom_nil]
  | cons r rules ih =>
    have hback' : ∀ m ∈ rules, m.ReadsBack := fun m hm => hback m (List.mem_cons_of_mem _ hm)
    have hne' : ∀ m ∈ rules, m.serialize ≠ [] := fun m hm => hne m (List.mem_cons_of_mem _ hm)
    rw [serializeAll_cons (hne r List.mem_cons_self) hne', hback r List.mem_cons_self,
      List.map_cons]
    cases rules with
    | nil =>
      rw [List.isEmpty_nil, if_pos rfl, pieces_nil, rulesFrom_nil]
    | cons m rules =>
      rw [List.isEmpty_cons, if_neg Bool.false_ne_true, rulesFrom_pieces_of_isSpace rfl,
        ih hback' hne']

theorem serialize_ne_nil {r : Rule} (h : ∀ issue, r ≠ .error issue) : r.serialize ≠ [] := by
  cases r with
  | qualified r => simp [Rule.serialize]
  | atRule r =>
    cases hbody : r.body with
    | none => simp [Rule.serialize, hbody]
    | some body => simp [Rule.serialize, hbody]
  | error issue => exact absurd rfl (h issue)

/-! ## Stylesheets -/

/-- The blanks of ASCII are white space, but for the vertical tab. -/
theorem isSpace_of_isBlank {c : Char} (hascii : c.toNat < 0x80) (hv : c ≠ '\x0b')
    (h : isBlank c = true) : isSpace c = true := by
  have hc := Char.ofNat_toNat c
  have hcode : c.toNat = 9 ∨ c.toNat = 10 ∨ c.toNat = 11 ∨ c.toNat = 12 ∨ c.toNat = 13 ∨
      c.toNat = 32 := by
    simp only [isBlank, Bool.or_eq_true, Bool.and_eq_true, decide_eq_true_eq, beq_iff_eq] at h
    omega
  rcases hcode with h | h | h | h | h | h
  all_goals
    rw [h] at hc
    subst hc
  · rfl
  · rfl
  · exact absurd rfl hv
  · rfl
  · rfl
  · rfl

theorem nestingOf_map_unplaced (stack : List Bracket) (ls : List Lexeme) :
    nestingOf stack (ls.map Lexeme.unplaced) = nestingOf stack ls := by
  rw [nestingOf, List.foldl_map]
  rfl

theorem sound_pieces {t : Text} (hascii : ∀ c ∈ t, c.toNat < 0x80) (hescape : '\\' ∉ t)
    (hv : '\x0b' ∉ t) (hwhole : ∀ l ∈ lexemes t, l.isWhole = true) : Sound (pieces t) where
  isPieces := by rw [sourceOf_pieces]
  noEscape := by rwa [sourceOf_pieces]
  isSpace_of_isBlank := by
    rw [sourceOf_pieces]
    intro c hc
    refine isSpace_of_isBlank (hascii c hc) ?_
    rintro rfl
    exact hv hc
  whole := by
    intro l hl
    obtain ⟨m, hm, rfl⟩ := List.mem_map.mp hl
    exact hwhole m hm

/-- What a list of rules is written as does not depend on their lines. -/
theorem serializeAll_map_unplaced (rules : List Rule) :
    Rule.serializeAll (rules.map Rule.unplaced) = Rule.serializeAll rules := by
  have hmap : (rules.map Rule.unplaced).map Rule.serialize = rules.map Rule.serialize := by
    rw [List.map_map]
    exact List.map_congr_left fun r _ => Rule.serialize_unplaced r
  rw [Rule.serializeAll, Rule.serializeAll, hmap]

theorem mem_of_map_unplaced_eq {rules rules' : List Rule} {r : Rule}
    (h : rules.map Rule.unplaced = rules'.map Rule.unplaced) (hr : r ∈ rules) :
    ∃ r' ∈ rules', r'.unplaced = r.unplaced := by
  have hmem : r.unplaced ∈ rules'.map Rule.unplaced := h ▸ List.mem_map_of_mem hr
  exact List.mem_map.mp hmem

/-- **Writing the rules of a stylesheet and reading them again** gives the same rules, lines
aside, and writing those gives the same text.  The stylesheet is of ASCII, without backslashes
and vertical tabs; each comment, string and address in it finds its end and no bracket is left
open; every rule of it can be read, and none is named `@charset`. -/
theorem parseStylesheet_serializeAll {t : Text} (hascii : ∀ c ∈ t, c.toNat < 0x80)
    (hescape : '\\' ∉ t) (hv : '\x0b' ∉ t) (hwhole : ∀ l ∈ lexemes t, l.isWhole = true)
    (hnest : nestingOf [] (lexemes t) = [])
    (hissue : ∀ issue, Rule.error issue ∉ parseStylesheet t)
    (hcharset : ∀ rule, Rule.atRule rule ∈ parseStylesheet t →
      rule.isNamed "charset".toList = false) :
    (parseStylesheet (Rule.serializeAll (parseStylesheet t))).map Rule.unplaced =
        (parseStylesheet t).map Rule.unplaced ∧
      Rule.serializeAll (parseStylesheet (Rule.serializeAll (parseStylesheet t))) =
        Rule.serializeAll (parseStylesheet t) := by
  have hrules := map_unplaced_parseStylesheet .start t
  have hissue' : ∀ issue, Rule.error issue ∉ rulesFrom .start true (pieces t) := by
    intro issue hmem
    obtain ⟨r, hr, heq⟩ := mem_of_map_unplaced_eq hrules.symm hmem
    cases r with
    | error i => exact hissue i hr
    | qualified r | atRule r => cases heq
  have hcharset' : ∀ rule, Rule.atRule rule ∈ rulesFrom .start true (pieces t) →
      rule.isNamed "charset".toList = false := by
    intro rule hmem
    obtain ⟨r, hr, heq⟩ := mem_of_map_unplaced_eq hrules.symm hmem
    cases r with
    | atRule r =>
      have hplain : r.unplaced = rule.unplaced := Rule.atRule.inj heq
      have hname : r.keyword = rule.keyword := by
        show r.unplaced.keyword = rule.unplaced.keyword
        rw [hplain]
      rw [AtRule.isNamed, ← hname]
      exact hcharset r hr
    | qualified r | error r => cases heq
  have hback := readsBack_of_mem_rulesFrom (sound_pieces hascii hescape hv hwhole)
    (by rw [pieces, nestingOf_map_unplaced, hnest]) hissue' hcharset'
  have hne : ∀ r ∈ rulesFrom .start true (pieces t), r.serialize ≠ [] := by
    intro r hr
    refine serialize_ne_nil ?_
    rintro issue rfl
    exact hissue' issue hr
  have htext : Rule.serializeAll (parseStylesheet t) =
      Rule.serializeAll (rulesFrom .start true (pieces t)) := by
    rw [← serializeAll_map_unplaced, hrules, serializeAll_map_unplaced]
  have hagain : (parseStylesheet (Rule.serializeAll (parseStylesheet t))).map Rule.unplaced =
      (parseStylesheet t).map Rule.unplaced := by
    rw [map_unplaced_parseStylesheet .start, htext, rulesFrom_serializeAll hback hne, hrules]
  refine ⟨hagain, ?_⟩
  rw [← serializeAll_map_unplaced, hagain, serializeAll_map_unplaced]

/-- A stylesheet with a statement, a block in a block, a comment, and a brace in a string. -/
def mixedSheet : Text :=
  "@import url(a.css);\n@media (x) /* y */ \x7b\n .a \x7b \x7d \x7d\n b > c\x7bd: '\x7b'\x7d".toList

/-- The rules of `mixedSheet` are read again. -/
theorem parseStylesheet_serializeAll_mixedSheet :
    (parseStylesheet (Rule.serializeAll (parseStylesheet mixedSheet))).map Rule.unplaced =
        (parseStylesheet mixedSheet).map Rule.unplaced ∧
      Rule.serializeAll (parseStylesheet (Rule.serializeAll (parseStylesheet mixedSheet))) =
        Rule.serializeAll (parseStylesheet mixedSheet) := by
  have hread : ∀ r ∈ parseStylesheet mixedSheet,
      (match r with
        | .error _ => false
        | .atRule rule => !rule.isNamed "charset".toList
        | .qualified _ => true) = true := by
    decide +kernel
  refine parseStylesheet_serializeAll (by decide +kernel) (by decide +kernel)
    (by decide +kernel) (by decide +kernel) (by decide +kernel) ?_ ?_
  · intro issue hmem
    exact absurd (hread _ hmem) Bool.false_ne_true
  · intro rule hmem
    simpa using hread _ hmem

end StyleAudit.Css
