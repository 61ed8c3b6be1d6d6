import Mathlib.Logic.IsEmpty.Basic
import StyleAudit.Proofs.Css.CommentTokens
import StyleAudit.Proofs.Css.Letters
import StyleAudit.Proofs.Css.Marks

/-!
# Which declarations are important

A declaration is important if its value ends in the mark `!important`.  The grammar has two tokens
for the mark, a sign and a word, and white space and comments may stand between them and behind them
(`TokenMark`).  What is looked for is nine letters at the end of the text of the value, and an
exclamation mark in front of them, with blanks around the letters (`TextMark`).

Neither implies the other.  A comment in the mark or an escape in its word hides a mark from the
text; the end of a string, of an address or of a comment that is never closed, an escaped sign and a
no-break space show one that is none.  The two agree on a declaration, on its value as well, exactly
if its marks are *written out* (`WrittenOut`): what is a mark by the lexemes has white space in it
and no comment, and a word without escapes; and what is a mark by the text begins with a sign that
is a lexeme of its own, and its blanks are white space to the grammar.

* `TextMark.splitImportance_trim`, `splitImportance_trim_of_isEmpty` --- what the text tells;
* `TextMark.exists_tokenMark`, `TokenMark.exists_textMark` --- from one mark to the other;
* `importance_of_mem_parseBlock` --- the declarations of a block;
* `exists_importance_missed` --- a declaration on which the two do not agree.
-/

namespace StyleAudit.Css

open Text (trim trimEnd)

/-! ## The mark as text -/

/-- The word of the mark. -/
def importantWord : Text := "important".toList

/-- **The mark at the end of a text**: an exclamation mark and the word, with blanks in front of the
word and behind it. -/
structure TextMark (t : Text) where
  front : Text
  lead : Text
  word : Text
  trail : Text
  split : t = front ++ '!' :: (lead ++ (word ++ trail))
  isImportant : word.sameName importantWord = true
  blankLead : ∀ c ∈ lead, isBlank c = true
  blankTrail : ∀ c ∈ trail, isBlank c = true

section Word

variable {word : Text}

/-- A character whose lower case is a letter is one. -/
theorem isAlpha_of_isAlpha_toLower {c : Char} (h : c.toLower.isAlpha = true) :
    c.isAlpha = true := by
  unfold Char.toLower at h
  split at h
  next hcapital =>
    have hupper : c.isUpper = true := decide_eq_true hcapital
    exact Bool.or_eq_true_iff.mpr (.inl hupper)
  next => exact h

theorem isAlpha_of_sameName (h : word.sameName importantWord = true) :
    ∀ c ∈ word, c.isAlpha = true := by
  intro c hc
  have hfold : word.foldCase = importantWord.foldCase := Text.sameName_iff.mp h
  have hmem : c.toLower ∈ importantWord.foldCase := by
    rw [← hfold]
    exact List.mem_map_of_mem hc
  exact isAlpha_of_isAlpha_toLower
    ((by decide : ∀ x ∈ importantWord.foldCase, x.isAlpha = true) _ hmem)

theorem length_of_sameName (h : word.sameName importantWord = true) :
    word.length = importantWord.length := by
  have hfold := congrArg List.length (Text.sameName_iff.mp h)
  rwa [Text.foldCase, Text.foldCase, List.length_map, List.length_map] at hfold

theorem exists_cons_of_sameName (h : word.sameName importantWord = true) :
    ∃ c w, word = c :: w ∧ c.isAlpha = true := by
  cases word with
  | nil => exact absurd (length_of_sameName h) (by decide)
  | cons c w => exact ⟨c, w, rfl, isAlpha_of_sameName h c List.mem_cons_self⟩

end Word

/-- A value with the mark at its end. -/
theorem splitImportance_append {before lead word : Text}
    (hword : word.sameName importantWord = true) (hlead : ∀ c ∈ lead, isBlank c = true) :
    splitImportance (before ++ '!' :: (lead ++ word)) = (trimEnd before, true) := by
  have hreverse : (before ++ '!' :: (lead ++ word)).reverse =
      word.reverse ++ (lead.reverse ++ '!' :: before.reverse) := by
    simp
  have hlength : word.reverse.length = "tnatropmi".toList.length := by
    rw [List.length_reverse, length_of_sameName hword]
    decide
  have hsame : Text.sameName word.reverse "tnatropmi".toList = true := by
    rw [Text.sameName_iff, Text.foldCase, List.map_reverse, ← Text.foldCase,
      Text.sameName_iff.mp hword]
    decide
  have hblank : (lead.reverse ++ '!' :: before.reverse).dropWhile isBlank =
      '!' :: before.reverse := by
    rw [List.dropWhile_append_of_pos fun c hc => hlead c (List.mem_reverse.mp hc)]
    exact List.dropWhile_cons_of_neg (by decide)
  simp only [splitImportance, hreverse, List.take_left' hlength, List.drop_left' hlength, hsame,
    hblank, if_true, List.reverse_reverse]

/-- A value is split at the mark or not at all. -/
theorem splitImportance_eq_or (value : Text) : splitImportance value = (value, false) ∨
    ∃ before lead word, value = before ++ '!' :: (lead ++ word) ∧
      Text.sameName word importantWord = true ∧ ∀ c ∈ lead, isBlank c = true := by
  simp only [splitImportance]
  split
  next hsame =>
    split
    next before hbefore =>
      generalize hfirst : value.reverse.take "tnatropmi".toList.length = first at hsame
      generalize hlast : value.reverse.drop "tnatropmi".toList.length = last at hbefore
      have hvalue : value.reverse = first ++ (last.takeWhile isBlank ++ '!' :: before) := by
        rw [← hbefore, List.takeWhile_append_dropWhile, ← hfirst, ← hlast, List.take_append_drop]
      refine .inr ⟨before.reverse, (last.takeWhile isBlank).reverse, first.reverse, ?_, ?_, ?_⟩
      · rw [← List.reverse_reverse value, hvalue]
        simp
      · rw [Text.sameName_iff, Text.foldCase, List.map_reverse, ← Text.foldCase,
          Text.sameName_iff.mp hsame]
        decide
      · exact fun c hc => List.mem_takeWhile_imp (List.mem_reverse.mp hc)
    next => exact .inl rfl
  next => exact .inl rfl

section TextMark

variable {t : Text} (m : TextMark t)

/-- Only the sign of the mark is an exclamation mark. -/
theorem TextMark.notMem_behind : '!' ∉ m.lead ++ (m.word ++ m.trail) := by
  have hblank : ∀ {u : Text}, (∀ c ∈ u, isBlank c = true) → '!' ∉ u :=
    fun hu hmem => absurd (hu _ hmem) (by decide)
  have hword : '!' ∉ m.word := fun hmem =>
    absurd (isAlpha_of_sameName m.isImportant _ hmem) (by decide)
  simp only [List.mem_append, not_or]
  exact ⟨hblank m.blankLead, hword, hblank m.blankTrail⟩

/-- The blanks behind the word are trimmed away, and the mark is left. -/
theorem TextMark.trim_eq :
    trim t = m.front.dropWhile isBlank ++ '!' :: (m.lead ++ m.word) := by
  have hfirst : ∀ u : Text, ∀ x ∈ ('!' :: u).head?, isBlank x = false := by
    rintro u x ⟨⟩
    decide
  have hne : m.word ≠ [] := by
    obtain ⟨c, w, hword, -⟩ := exists_cons_of_sameName m.isImportant
    rw [hword]
    exact List.cons_ne_nil c w
  have hlast : ∀ x ∈ ('!' :: m.lead ++ m.word).getLast?, isBlank x = false := by
    intro x hx
    rw [List.getLast?_append_of_ne_nil _ hne] at hx
    exact isBlank_of_isAlpha (isAlpha_of_sameName m.isImportant x (List.mem_of_getLast? hx))
  calc trim t
      = m.front.dropWhile isBlank ++ trimEnd ('!' :: (m.lead ++ (m.word ++ m.trail))) :=
        (congrArg trim m.split).trans (Text.trim_append_cons (by decide) _ _)
    _ = m.front.dropWhile isBlank ++ trim ('!' :: m.lead ++ m.word ++ m.trail) := by
        rw [← Text.trim_eq_trimEnd (hfirst _), ← List.append_assoc]
        rfl
    _ = m.front.dropWhile isBlank ++ '!' :: (m.lead ++ m.word) := by
        rw [Text.trim_append_blanks m.blankTrail,
          Text.trim_eq_self (t := '!' :: m.lead ++ m.word) (hfirst _) hlast, List.cons_append]

/-- **The value of a declaration with the mark** is what stands in front of the mark, trimmed. -/
theorem TextMark.splitImportance_trim : splitImportance (trim t) = (trim m.front, true) := by
  rw [m.trim_eq, splitImportance_append m.isImportant m.blankLead]
  rfl

/-- The value of a declaration without the mark is left as it is. -/
theorem splitImportance_trim_of_isEmpty (h : IsEmpty (TextMark t)) :
    splitImportance (trim t) = (trim t, false) := by
  rcases splitImportance_eq_or (trim t) with hsplit | ⟨before, lead, word, hsplit, hword, hlead⟩
  · exact hsplit
  · obtain ⟨first, last, ht, -, hlast⟩ := Text.exists_append_trim_append t
    exact h.elim ⟨first ++ before, lead, word, last, by rw [ht, hsplit]; simp, hword, hlead, hlast⟩

/-- **Where the mark stands is told by the trimmed text in front of it.** -/
theorem TextMark.eq_of_trim_eq {front behind : Text} (h : t = front ++ '!' :: behind)
    (htrim : trim front = trim m.front) :
    front = m.front ∧ behind = m.lead ++ (m.word ++ m.trail) := by
  have hcount : front.count '!' = m.front.count '!' := by
    rw [← Text.count_trim (by decide) front, htrim, Text.count_trim (by decide)]
  have hsplit := h.symm.trans m.split
  rcases List.append_eq_append_iff.mp hsplit with ⟨u, hfront, hbehind⟩ | ⟨u, hfront, hbehind⟩
  · rcases u with _ | ⟨x, u⟩
    · rw [List.append_nil] at hfront
      exact ⟨hfront.symm, (List.cons.inj hbehind).2⟩
    · -- one sign more would stand in front of the mark
      obtain rfl : '!' = x := (List.cons.inj hbehind).1
      rw [hfront, List.count_append, List.count_cons_self] at hcount
      omega
  · rcases u with _ | ⟨x, u⟩
    · rw [List.append_nil] at hfront
      exact ⟨hfront, (List.cons.inj hbehind).2.symm⟩
    · refine absurd ?_ m.notMem_behind
      rw [(List.cons.inj hbehind).2]
      exact List.mem_append_right _ List.mem_cons_self

end TextMark

/-! ## The mark as tokens -/

/-- **The mark at the end of a run of lexemes**: an exclamation mark and the word, with white space
and comments in front of the word and behind it. -/
structure TokenMark (run : List Lexeme) where
  front : List Lexeme
  sign : Lexeme
  lead : List Lexeme
  word : Lexeme
  name : Text
  trail : List Lexeme
  split : run = front ++ sign :: (lead ++ word :: trail)
  isSign : sign.token = .delim '!'
  isWord : word.token = .ident name
  isImportant : name.sameName importantWord = true
  blankLead : ∀ l ∈ lead, l.isBlank = true
  blankTrail : ∀ l ∈ trail, l.isBlank = true

/-- The mark has no comment in it, and its word is written without escapes. -/
structure TokenMark.IsPlain {run : List Lexeme} (m : TokenMark run) : Prop where
  white : ∀ l ∈ m.lead ++ m.trail, l.isWhite = true
  spelled : m.word.text = m.name

/-- The sign of the mark is a lexeme of the run, and its blanks are white space to the grammar. -/
structure TextMark.IsRead {t : Text} (m : TextMark t) (run : List Lexeme) : Prop where
  sign : ∃ front sign behind, run = front ++ sign :: behind ∧ sign.token = .delim '!' ∧
    Lexeme.sourceOf front = m.front
  white : ∀ c ∈ m.lead ++ m.trail, isSpace c = true

/-- A name without escapes is the text that it takes. -/
theorem eq_of_nameAhead_eq {u s name : Text} (hslash : '\\' ∉ u) (hnul : '\x00' ∉ u)
    (h : nameAhead (u ++ s) = (name, u.length)) : name = u := by
  induction u generalizing name with
  | nil =>
    have hnil : nameAhead s = ([], 0) := nameAhead_of_length_eq_zero (congrArg Prod.snd h)
    exact (congrArg Prod.fst (h.symm.trans hnil))
  | cons c u ih =>
    rw [List.mem_cons, not_or] at hslash hnul
    rw [List.cons_append, nameAhead_of_ne_backslash (Ne.symm hslash.1)] at h
    split at h
    next =>
      rw [if_neg (Ne.symm hnul.1)] at h
      obtain ⟨rfl, hlength⟩ := Prod.mk.inj h
      rw [List.length_cons] at hlength
      exact congrArg (c :: ·) (ih hslash.2 hnul.2 (Prod.ext rfl (by omega)))
    next => cases h

/-- **The text of an identifier without escapes is its name.** -/
theorem text_eq_of_ident {t name : Text} {l : Lexeme} (hl : l ∈ pieces t)
    (h : l.token = .ident name) (hslash : '\\' ∉ l.text) (hnul : '\x00' ∉ l.text) :
    l.text = name := by
  obtain ⟨c, v, s, htext, hahead, -⟩ := exists_ahead_of_mem_pieces hl
  obtain ⟨-, hat⟩ := ahead_of_isWord (c := c) (t := v ++ s) (by rw [hahead, h]; rfl)
  rw [hahead, h] at hat
  have hparen : ((c :: (v ++ s)).drop (nameAhead (c :: (v ++ s))).2).head? ≠ some '(' := by
    intro hparen
    obtain ⟨rest, hrest⟩ := List.head?_eq_some_iff.mp hparen
    have hrun := runsOn_identLikeAhead hrest
    rw [← hat] at hrun
    cases hrun
  rw [identLikeAhead_of_no_paren hparen] at hat
  obtain ⟨hname, hlength⟩ := Prod.mk.inj hat
  rw [htext] at hslash hnul ⊢
  exact (eq_of_nameAhead_eq (s := s) hslash hnul
    (Prod.ext (Token.ident.inj hname).symm hlength.symm)).symm

/-! ## From one to the other -/

section Runs

variable {run : List Lexeme} {d : Text}

theorem ReadsBefore.isWhite_of_isSpace (h : ReadsBefore run d)
    (hspace : ∀ c ∈ Lexeme.sourceOf run, isSpace c = true) : ∀ l ∈ run, l.isWhite = true := by
  intro l hl
  obtain ⟨c, v, s, htext, hahead, -⟩ := exists_ahead_of_mem_pieces (h.unplaced_mem_pieces hl)
  have hc : isSpace c = true := by
    refine hspace c (List.mem_flatMap.mpr ⟨l, hl, ?_⟩)
    rw [show l.text = c :: v from htext]
    exact List.mem_cons_self
  rw [← ahead_eq_space_iff (t := v ++ s), hahead] at hc
  exact beq_iff_eq.mpr hc

/-- White space at the front of a run. -/
theorem ReadsBefore.exists_lead (h : ReadsBefore run d) {lead u : Text} {c : Char}
    (hsource : Lexeme.sourceOf run = lead ++ c :: u) (hlead : ∀ x ∈ lead, isSpace x = true)
    (hc : isSpace c = false) :
    ∃ front rest, run = front ++ rest ∧ (∀ l ∈ front, l.isWhite = true) ∧
      Lexeme.sourceOf rest = c :: u := by
  rcases lead with _ | ⟨x, lead⟩
  · exact ⟨[], run, rfl, fun l hl => absurd hl List.not_mem_nil, hsource⟩
  · rcases run with _ | ⟨g, rest⟩
    · cases hsource
    · have htake : (lead ++ c :: (u ++ d)).takeWhile isSpace = lead := by
        rw [List.takeWhile_append_of_pos fun y hy => hlead y (List.mem_cons_of_mem x hy),
          List.takeWhile_cons_of_neg (Bool.eq_false_iff.mp hc), List.append_nil]
      rw [ReadsBefore, hsource, List.append_assoc, List.cons_append, List.cons_append,
        pieces_of_isSpace (hlead x List.mem_cons_self), htake, List.map_cons, List.cons_append,
        List.cons.injEq] at h
      have hwhite : g.isWhite = true := beq_iff_eq.mpr (congrArg Lexeme.token h.1).symm
      have htext : g.text = x :: lead := (congrArg Lexeme.text h.1).symm
      rw [Lexeme.sourceOf_cons, htext] at hsource
      exact ⟨[g], rest, rfl, List.forall_mem_singleton.mpr hwhite,
        List.append_cancel_left hsource⟩

/-- A word at the front of a run, and white space behind it. -/
theorem ReadsBefore.exists_word (h : ReadsBefore run d) (hd : StandsApart d) {w trail : Text}
    {c : Char} (hsource : Lexeme.sourceOf run = c :: w ++ trail) (hc : c.isAlpha = true)
    (hw : ∀ x ∈ w, isNameChar x = true) (htrail : ∀ x ∈ trail, isSpace x = true) :
    ∃ word rest, run = word :: rest ∧ word.token = .ident (c :: w) ∧
      ∀ l ∈ rest, l.isWhite = true := by
  have hapart : StandsApart (trail ++ d) := by
    rcases trail with _ | ⟨x, trail⟩
    · exact hd
    · exact standsApart_cons.mpr (mem_boundaries_of_isSpace (htrail x List.mem_cons_self))
  rcases run with _ | ⟨g, rest⟩
  · cases hsource
  · have hrest := (readsBefore_cons.mp h).2
    rw [ReadsBefore, hsource, List.append_assoc, pieces_word_append hc hw hapart, List.map_cons,
      List.cons_append, List.cons.injEq] at h
    have htext : g.text = c :: w := (congrArg Lexeme.text h.1).symm
    rw [Lexeme.sourceOf_cons, htext] at hsource
    rw [← List.append_cancel_left hsource] at htrail
    exact ⟨g, rest, rfl, (congrArg Lexeme.token h.1).symm, hrest.isWhite_of_isSpace htrail⟩

theorem Lexeme.isBlank_of_isWhite {l : Lexeme} (h : l.isWhite = true) : l.isBlank = true := by
  rw [Lexeme.isBlank, eq_of_beq h]
  rfl

theorem ReadsBefore.isSpace_of_isWhite (h : ReadsBefore run d) {l : Lexeme} (hl : l ∈ run)
    (hwhite : l.isWhite = true) : ∀ c ∈ l.text, isSpace c = true :=
  isSpace_of_mem_text (l := l.unplaced) (h.unplaced_mem_pieces hl) (eq_of_beq hwhite)

theorem ReadsBefore.text_sign (h : ReadsBefore run d) {l : Lexeme} (hl : l ∈ run)
    (hsign : l.token = .delim '!') : l.text = ['!'] :=
  text_eq_of_mark? (l := l.unplaced) (h.unplaced_mem_pieces hl)
    (by rw [show l.unplaced.token = _ from hsign]; rfl)

/-- **A mark that is read is a mark of tokens.** -/
theorem TextMark.exists_tokenMark (hrun : ReadsBefore run d) (hd : StandsApart d)
    (m : TextMark (Lexeme.sourceOf run)) (hread : m.IsRead run) :
    ∃ k : TokenMark run, Lexeme.sourceOf k.front = m.front := by
  obtain ⟨front, sign, behind, rfl, hsign, hfront⟩ := hread.sign
  have hbehind : ReadsBefore behind d := (readsBefore_cons.mp (readsBefore_append.mp hrun).2).2
  obtain ⟨c, w, hword, hc⟩ := exists_cons_of_sameName m.isImportant
  have hletters := isAlpha_of_sameName m.isImportant
  rw [hword] at hletters
  have hsource : Lexeme.sourceOf behind = m.lead ++ c :: (w ++ m.trail) := by
    have hall : Lexeme.sourceOf (front ++ sign :: behind) =
        Lexeme.sourceOf front ++ '!' :: Lexeme.sourceOf behind := by
      rw [Lexeme.sourceOf_append, Lexeme.sourceOf_cons, hrun.text_sign (by simp) hsign]
      rfl
    rw [hfront] at hall
    have hsplit := List.append_cancel_left (hall.symm.trans m.split)
    rw [hword] at hsplit
    exact (List.cons.inj hsplit).2
  obtain ⟨lead, rest, rfl, hlead, hrest⟩ := hbehind.exists_lead hsource
    (fun x hx => hread.white x (List.mem_append_left _ hx)) (isSpace_of_isAlpha hc)
  have hname : ∀ x ∈ w, isNameChar x = true := fun x hx => by
    rw [isNameChar, isAlphanum_of_isAlpha (hletters x (List.mem_cons_of_mem c hx))]
    rfl
  obtain ⟨word, trail, rfl, hident, htrail⟩ := (readsBefore_append.mp hbehind).2.exists_word hd
    hrest hc hname fun x hx => hread.white x (List.mem_append_right _ hx)
  exact ⟨⟨front, sign, lead, word, c :: w, trail, rfl, hsign, hident, hword ▸ m.isImportant,
    fun l hl => Lexeme.isBlank_of_isWhite (hlead l hl),
    fun l hl => Lexeme.isBlank_of_isWhite (htrail l hl)⟩, hfront⟩

section TokenMark

variable (m : TokenMark run)

theorem TokenMark.mem_run {l : Lexeme} (hl : l ∈ m.sign :: (m.lead ++ m.word :: m.trail)) :
    l ∈ run := by
  rw [m.split]
  exact List.mem_append_right _ hl

theorem TokenMark.sourceOf_run (hrun : ReadsBefore run d) : Lexeme.sourceOf run =
    Lexeme.sourceOf m.front ++
      '!' :: (Lexeme.sourceOf m.lead ++ (m.word.text ++ Lexeme.sourceOf m.trail)) := by
  have htext := hrun.text_sign (m.mem_run List.mem_cons_self) m.isSign
  refine (congrArg Lexeme.sourceOf m.split).trans ?_
  simp only [Lexeme.sourceOf_append, Lexeme.sourceOf_cons, htext]
  rfl

/-- White space around the word of the mark. -/
theorem TokenMark.isSpace_of_isWhite (hrun : ReadsBefore run d)
    (hwhite : ∀ l ∈ m.lead ++ m.trail, l.isWhite = true) :
    ∀ c ∈ Lexeme.sourceOf m.lead ++ Lexeme.sourceOf m.trail, isSpace c = true := by
  rw [← Lexeme.sourceOf_append]
  intro c hc
  obtain ⟨l, hl, hcl⟩ := List.mem_flatMap.mp hc
  refine hrun.isSpace_of_isWhite (m.mem_run (List.mem_cons_of_mem _ ?_)) (hwhite l hl) c hcl
  simp only [List.mem_append, List.mem_cons] at hl ⊢
  exact hl.imp id .inr

/-- **A plain mark of tokens is a mark of the text.** -/
theorem TokenMark.exists_textMark (hrun : ReadsBefore run d) (hplain : m.IsPlain) :
    ∃ k : TextMark (Lexeme.sourceOf run), k.front = Lexeme.sourceOf m.front := by
  have hspace := m.isSpace_of_isWhite hrun hplain.white
  refine ⟨⟨Lexeme.sourceOf m.front, Lexeme.sourceOf m.lead, m.name, Lexeme.sourceOf m.trail, ?_,
    m.isImportant, fun c hc => isBlank_of_isSpace (hspace c (List.mem_append_left _ hc)),
    fun c hc => isBlank_of_isSpace (hspace c (List.mem_append_right _ hc))⟩, rfl⟩
  rw [← hplain.spelled]
  exact m.sourceOf_run hrun

/-- Letters tell where the blanks in front of the word end. -/
theorem takeWhile_append_word {lead word : Text} (trail : Text)
    (hlead : ∀ c ∈ lead, isBlank c = true) (hword : word.sameName importantWord = true) :
    (lead ++ (word ++ trail)).takeWhile (fun c => !c.isAlpha) = lead := by
  obtain ⟨c, w, rfl, hc⟩ := exists_cons_of_sameName hword
  have hnot : ∀ x ∈ lead, (!x.isAlpha) = true := by
    intro x hx
    rw [Bool.not_eq_true', Bool.eq_false_iff]
    intro halpha
    exact Bool.false_ne_true ((isBlank_of_isAlpha halpha).symm.trans (hlead x hx))
  rw [List.takeWhile_append_of_pos hnot, List.cons_append,
    List.takeWhile_cons_of_neg (by rw [hc]; exact Bool.false_ne_true), List.append_nil]

/-- A mark in which every character is a blank or a letter has no comment and no escape in it. -/
theorem TokenMark.isPlain_of_chars (hrun : ReadsBefore run d)
    (hchars : ∀ l ∈ m.lead ++ m.word :: m.trail, ∀ c ∈ l.text,
      isBlank c = true ∨ c.isAlpha = true) : m.IsPlain := by
  have hnone : ∀ {x : Char}, isBlank x = false → x.isAlpha = false →
      ∀ l ∈ m.lead ++ m.word :: m.trail, x ∉ l.text := by
    intro x hx hx' l hl hmem
    rcases hchars l hl x hmem with h | h
    · exact Bool.false_ne_true (hx.symm.trans h)
    · exact Bool.false_ne_true (hx'.symm.trans h)
  have hpieces : ∀ l ∈ m.lead ++ m.word :: m.trail,
      l.unplaced ∈ pieces (Lexeme.sourceOf run ++ d) := fun l hl =>
    hrun.unplaced_mem_pieces (m.mem_run (List.mem_cons_of_mem _ hl))
  constructor
  case white =>
    intro l hl
    have hl' : l ∈ m.lead ++ m.word :: m.trail := by
      simp only [List.mem_append, List.mem_cons] at hl ⊢
      exact hl.imp id .inr
    have hblank : l.isBlank = true :=
      (List.mem_append.mp hl).elim (m.blankLead l) (m.blankTrail l)
    cases htoken : l.token with
    | space => exact beq_iff_eq.mpr htoken
    | comment =>
      -- a comment begins with a slash
      refine absurd ?_ (hnone (x := '/') (by decide) (by decide) l hl')
      obtain ⟨c, v, s, htext, hahead, -⟩ := exists_ahead_of_mem_pieces (hpieces l hl')
      have hcomment : (Token.ahead c (v ++ s)).1 = .comment := by
        rw [hahead]
        exact htoken
      obtain ⟨rfl, -⟩ := eq_of_ahead_eq_comment hcomment
      rw [show l.text = _ from htext]
      exact List.mem_cons_self
    | _ => rw [Lexeme.isBlank, htoken] at hblank; cases hblank
  case spelled =>
    have hword : m.word ∈ m.lead ++ m.word :: m.trail := by simp
    exact text_eq_of_ident (l := m.word.unplaced) (hpieces _ hword) m.isWord
      (hnone (by decide) (by decide) m.word hword) (hnone (by decide) (by decide) m.word hword)

/-- **Marks with the same text behind their signs** hide nothing: the one of tokens is plain, and
the blanks of the one of the text are white space to the grammar. -/
theorem TokenMark.isPlain_of_behind_eq (hrun : ReadsBefore run d)
    (k : TextMark (Lexeme.sourceOf run))
    (hbehind : Lexeme.sourceOf m.lead ++ (m.word.text ++ Lexeme.sourceOf m.trail) =
      k.lead ++ (k.word ++ k.trail)) :
    m.IsPlain ∧ ∀ c ∈ k.lead ++ k.trail, isSpace c = true := by
  have hplain : m.IsPlain := by
    refine m.isPlain_of_chars hrun fun l hl c hc => ?_
    have hmem : c ∈ k.lead ++ (k.word ++ k.trail) := by
      rw [← hbehind, ← Lexeme.sourceOf_cons, ← Lexeme.sourceOf_append]
      exact List.mem_flatMap.mpr ⟨l, hl, hc⟩
    rcases List.mem_append.mp hmem with h | h
    · exact .inl (k.blankLead c h)
    · rcases List.mem_append.mp h with h | h
      · exact .inr (isAlpha_of_sameName k.isImportant c h)
      · exact .inl (k.blankTrail c h)
  refine ⟨hplain, ?_⟩
  have hspace := m.isSpace_of_isWhite hrun hplain.white
  have hname : Text.sameName m.word.text importantWord = true := hplain.spelled ▸ m.isImportant
  have hlead : Lexeme.sourceOf m.lead = k.lead := by
    rw [← takeWhile_append_word k.trail k.blankLead k.isImportant, ← hbehind]
    exact (takeWhile_append_word _
      (fun c hc => isBlank_of_isSpace (hspace c (List.mem_append_left _ hc))) hname).symm
  rw [hlead] at hbehind hspace
  have htrail : Lexeme.sourceOf m.trail = k.trail :=
    List.append_inj_right (List.append_cancel_left hbehind)
      ((length_of_sameName hname).trans (length_of_sameName k.isImportant).symm)
  rwa [htrail] at hspace

end TokenMark

end Runs

/-! ## Declarations -/

/-- **Where a declaration is read** in a text: its name and its colon, its value up to the blanks in
front of its end, and what is behind the value. -/
structure Declaration.ReadFrom (d : Declaration) (t : Text) (head value behind : List Lexeme) :
    Prop where
  start : head ++ (value ++ behind) ∈ itemStarts (endPlace t) (lexemes t)
  reading : itemAt (endPlace t) (head ++ (value ++ behind)) = .declaration d
  head : ∃ name gap colon, head = name :: (gap ++ [colon]) ∧ name.token = .ident d.name ∧
    (∀ l ∈ gap, l.isBlank = true) ∧ colon.token = .colon
  ends : valuesUntil endsHead [] (value ++ behind) = (value, behind)

/-- The mark at the end of the text of a value tells whether the declaration is important, and what
is left of the value. -/
structure ToldByText (value : Text) (d : Declaration) : Prop where
  important : d.important = true ↔ Nonempty (TextMark value)
  before : ∀ m : TextMark value, d.value = trim m.front
  whole : IsEmpty (TextMark value) → d.value = trim value

/-- The mark at the end of the lexemes of a value tells whether the declaration is important, and
what is left of the value. -/
structure ToldByTokens (value : List Lexeme) (d : Declaration) : Prop where
  important : d.important = true ↔ Nonempty (TokenMark value)
  before : ∀ m : TokenMark value, d.value = trim (Lexeme.sourceOf m.front)
  whole : IsEmpty (TokenMark value) → d.value = trim (Lexeme.sourceOf value)

/-- The marks of a value are written out: what its lexemes have for a mark is plain, and what its
text has for one is read. -/
structure WrittenOut (value : List Lexeme) : Prop where
  plain : ∀ m : TokenMark value, m.IsPlain
  read : ∀ m : TextMark (Lexeme.sourceOf value), m.IsRead value

/-- **One value**: the text in front of a semicolon tells the importance as the lexemes do exactly
if the marks are written out. -/
theorem toldByTokens_iff {value : List Lexeme} {behind : Text} {d : Declaration}
    (hrun : ReadsBefore value behind) (hbehind : StandsApart behind)
    (htext : ToldByText (Lexeme.sourceOf value) d) : ToldByTokens value d ↔ WrittenOut value := by
  constructor
  · intro htokens
    have hsame : ∀ (m : TokenMark value) (k : TextMark (Lexeme.sourceOf value)),
        Lexeme.sourceOf m.front = k.front ∧ m.IsPlain ∧
          ∀ c ∈ k.lead ++ k.trail, isSpace c = true := by
      intro m k
      have htrim := (htokens.before m).symm.trans (htext.before k)
      obtain ⟨hfront, hrest⟩ := k.eq_of_trim_eq (m.sourceOf_run hrun) htrim
      exact ⟨hfront, m.isPlain_of_behind_eq hrun k hrest⟩
    refine ⟨fun m => ?_, fun k => ?_⟩
    · obtain ⟨k⟩ := htext.important.mp (htokens.important.mpr ⟨m⟩)
      exact (hsame m k).2.1
    · obtain ⟨m⟩ := htokens.important.mp (htext.important.mpr ⟨k⟩)
      obtain ⟨hfront, -, hspace⟩ := hsame m k
      exact ⟨⟨m.front, m.sign, _, m.split, m.isSign, hfront⟩, hspace⟩
  · rintro ⟨hplain, hread⟩
    refine ⟨htext.important.trans ⟨?_, ?_⟩, fun m => ?_, fun hnone => htext.whole ⟨fun k => ?_⟩⟩
    · rintro ⟨k⟩
      obtain ⟨m, -⟩ := k.exists_tokenMark hrun hbehind (hread k)
      exact ⟨m⟩
    · rintro ⟨m⟩
      obtain ⟨k, -⟩ := m.exists_textMark hrun (hplain m)
      exact ⟨k⟩
    · obtain ⟨k, hfront⟩ := m.exists_textMark hrun (hplain m)
      rw [htext.before k, hfront]
    · obtain ⟨m, -⟩ := k.exists_tokenMark hrun hbehind (hread k)
      exact hnone.elim m

theorem toldByText_of_eq {value : Text} {d : Declaration}
    (h : (d.value, d.important) = splitImportance (trim value)) : ToldByText value d := by
  rcases isEmpty_or_nonempty (TextMark value) with hnone | hmark
  · rw [splitImportance_trim_of_isEmpty hnone] at h
    obtain ⟨hvalue, himportant⟩ := Prod.mk.inj h
    refine ⟨?_, fun m => hnone.elim m, fun _ => hvalue⟩
    rw [himportant]
    exact iff_of_false Bool.false_ne_true fun ⟨m⟩ => hnone.elim m
  · have hsplit : ∀ m : TextMark value, d.value = trim m.front ∧ d.important = true := fun m =>
      Prod.mk.inj (h.trans m.splitImportance_trim)
    exact ⟨iff_of_true (hsplit hmark.some).2 hmark, fun m => (hsplit m).1,
      fun hnone => hnone.elim hmark.some⟩

/-- What a declaration is made of. -/
theorem declarationAhead_eq_ok {eof : Place} {name : Text} {ls after : List Lexeme}
    {d : Declaration} (h : declarationAhead eof name ls = .ok (d, after)) :
    ∃ colon rest, skipBlanks ls = colon :: rest ∧ colon.token = .colon ∧ d.name = name ∧
      (d.value, d.important) =
        splitImportance (trim (Lexeme.sourceOf (valuesUntil endsHead [] rest).1)) := by
  unfold declarationAhead at h
  split at h
  · cases h
  next colon rest hskip =>
    split at h
    · cases h
    · split at h
      next hcolon =>
        refine ⟨colon, rest, hskip, hcolon, ?_⟩
        simp only at h
        split at h
        · cases h
          exact ⟨rfl, rfl⟩
        · split at h
          · cases h
          · cases h
            exact ⟨rfl, rfl⟩
      next => cases h

/-- A declaration in a block was read as one. -/
theorem declaration_of_itemAt {eof : Place} {l : Lexeme} {ls : List Lexeme} {d : Declaration}
    (h : itemAt eof (l :: ls) = .declaration d) :
    ∃ after, l.token = .ident d.name ∧ declarationAhead eof d.name ls = .ok (d, after) := by
  have hresult : ∀ known r, Item.ofResult known r ≠ .declaration d := by
    intro known r
    cases r <;> exact Item.noConfusion
  cases htoken : l.token with
  | atKeyword keyword =>
    rw [itemAt_of_atKeyword htoken] at h
    cases h
  | ident name =>
    cases hd : declarationAhead eof name ls with
    | error issue =>
      rw [itemAt_of_retried htoken hd] at h
      exact absurd h (hresult _ _)
    | ok r =>
      obtain ⟨d', after⟩ := r
      rw [itemAt_of_declaration htoken hd] at h
      obtain rfl : d' = d := Item.declaration.inj h
      obtain ⟨-, -, -, -, rfl, -⟩ := declarationAhead_eq_ok hd
      exact ⟨after, rfl, hd⟩
  | _ =>
    rw [itemAt_of_qualified (by rw [htoken]; exact fun _ => Token.noConfusion)
      (by rw [htoken]; exact fun _ => Token.noConfusion)] at h
    exact absurd h (hresult _ _)

/-- What is behind the value of a declaration stands apart. -/
theorem standsApart_of_valuesUntil {stop : Token → Bool}
    (hstop : ∀ token, stop token = true → token.isEdge = true) {t : Text} {ls : List Lexeme}
    (hls : ls <:+ lexemes t) : StandsApart (Lexeme.sourceOf (valuesUntil stop [] ls).2) := by
  refine standsApart_of_endsHere hstop ?_
  rw [pieces_sourceOf_of_suffix ((valuesUntil_suffix stop [] ls).trans hls),
    endsHere_map keepsTokens_unplaced fun _ => rfl]
  exact endsHere_valuesUntil stop [] ls

/-- **Which declarations are important.**  Every declaration of a block is read from lexemes of the
text.  The end of the text of its value tells whether it is important, and what is left of the
value.  The lexemes of the value tell the same exactly if the marks are written out. -/
theorem importance_of_mem_parseBlock {t : Text} {d : Declaration}
    (h : .declaration d ∈ parseBlock t) :
    (∃ head value behind, d.ReadFrom t head value behind) ∧
    ∀ head value behind, d.ReadFrom t head value behind →
      ToldByText (Lexeme.sourceOf value) d ∧ (ToldByTokens value d ↔ WrittenOut value) := by
  constructor
  · rw [parseBlock, itemsFrom_eq_map] at h
    obtain ⟨start, hstart, hitem⟩ := List.mem_map.mp h
    obtain ⟨l, ls, rfl⟩ := List.exists_cons_of_ne_nil (itemStarts_suffix hstart).1
    obtain ⟨after, hname, hahead⟩ := declaration_of_itemAt hitem
    obtain ⟨colon, rest, hskip, hcolon, -⟩ := declarationAhead_eq_ok hahead
    have happend := valuesUntil_append endsHead [] rest
    have hls : ls.takeWhile Lexeme.isBlank ++ colon :: rest = ls := by
      rw [← hskip]
      exact List.takeWhile_append_dropWhile
    have hall : (l :: (ls.takeWhile Lexeme.isBlank ++ [colon])) ++
        ((valuesUntil endsHead [] rest).1 ++ (valuesUntil endsHead [] rest).2) = l :: ls := by
      rw [happend, List.cons_append, List.append_assoc, List.singleton_append, hls]
    exact ⟨_, _, _, hall ▸ hstart, hall ▸ hitem, ⟨l, _, colon, rfl, hname,
      fun x hx => List.mem_takeWhile_imp hx, hcolon⟩, by rw [happend]⟩
  · rintro _ value behind ⟨hstart, hreading, ⟨l, gap, colon, rfl, -, hgap, hcolon⟩, hends⟩
    have hsuffix : value ++ behind <:+ lexemes t :=
      (List.suffix_append _ _).trans (itemStarts_suffix hstart).2
    rw [List.cons_append, List.append_assoc, List.singleton_append] at hreading
    obtain ⟨after, -, hahead⟩ := declaration_of_itemAt hreading
    obtain ⟨colon', rest, hskip, -, -, hvalue⟩ := declarationAhead_eq_ok hahead
    have hblank : ¬ colon.isBlank = true := by
      rw [Lexeme.isBlank, hcolon]
      exact Bool.false_ne_true
    rw [skipBlanks, List.dropWhile_append_of_pos hgap, List.dropWhile_cons_of_neg hblank] at hskip
    cases hskip
    rw [hends] at hvalue
    have htext := toldByText_of_eq hvalue
    have happart := standsApart_of_valuesUntil (fun _ => isEdge_of_endsHead) hsuffix
    rw [hends] at happart
    exact ⟨htext, toldByTokens_iff (readsBefore_of_suffix hsuffix) happart htext⟩

/-- A declaration with the mark in capitals, and one without the mark. -/
def markedBlock : Text := "color: red ! IMPORTANT; margin: 0".toList

/-- The first declaration of `markedBlock` is important. -/
theorem importance_of_mem_parseBlock_markedBlock :
    Item.declaration ⟨"color".toList, "red".toList, true⟩ ∈ parseBlock markedBlock ∧
      ∃ head value behind,
        (⟨"color".toList, "red".toList, true⟩ : Declaration).ReadFrom markedBlock head value
          behind ∧ Nonempty (TextMark (Lexeme.sourceOf value)) := by
  have hmem : Item.declaration ⟨"color".toList, "red".toList, true⟩ ∈ parseBlock markedBlock := by
    decide +kernel
  obtain ⟨⟨head, value, behind, hread⟩, htold⟩ := importance_of_mem_parseBlock hmem
  exact ⟨hmem, head, value, behind, hread, (htold _ _ _ hread).1.important.mp rfl⟩

/-- A declaration with a comment in its mark. -/
def commentedMark : Text := "color: red !/**/important".toList

/-- **A mark with a comment in it is missed**, and it is left in the value. -/
theorem exists_importance_missed :
    parseBlock commentedMark =
        [.declaration ⟨"color".toList, "red !/**/important".toList, false⟩] ∧
      ¬ ∀ t d, .declaration d ∈ parseBlock t → ∀ head value behind,
        d.ReadFrom t head value behind → ToldByTokens value d := by
  have hparse : parseBlock commentedMark =
      [.declaration ⟨"color".toList, "red !/**/important".toList, false⟩] := by
    decide +kernel
  refine ⟨hparse, fun hall => ?_⟩
  have hread : (⟨"color".toList, "red !/**/important".toList, false⟩ : Declaration).ReadFrom
      commentedMark ((lexemes commentedMark).take 2) ((lexemes commentedMark).drop 2) [] :=
    ⟨by decide +kernel, by decide +kernel,
      ⟨⟨.ident "color".toList, "color".toList, ⟨1, 1, false⟩⟩, [], ⟨.colon, [':'], ⟨1, 6, false⟩⟩,
        by decide +kernel, rfl, fun l hl => absurd hl List.not_mem_nil, rfl⟩,
      by decide +kernel⟩
  have htold := hall commentedMark _ (by rw [hparse]; exact List.mem_singleton_self _) _ _ _ hread
  -- the sign, the comment and the word
  have hmark : TokenMark ((lexemes commentedMark).drop 2) :=
    ⟨((lexemes commentedMark).drop 2).take 3, ⟨.delim '!', ['!'], ⟨1, 12, false⟩⟩,
      [⟨.comment, "/**/".toList, ⟨1, 13, false⟩⟩],
      ⟨.ident importantWord, importantWord, ⟨1, 17, false⟩⟩, importantWord, [],
      by decide +kernel, rfl, rfl, by decide, by decide, fun l hl => absurd hl List.not_mem_nil⟩
  exact Bool.false_ne_true (htold.important.mpr ⟨hmark⟩)

end StyleAudit.Css
