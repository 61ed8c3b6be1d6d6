import StyleAudit.Extract.Validity
import StyleAudit.Proofs.Css.Flat
import StyleAudit.Proofs.Css.Letters

/-!
# Stylesheets laid out in rows

A stylesheet of class rules, each declaration in a row of its own: this is how most
stylesheets are written, and the semicolon checks are made for them.  A `Row` is a declaration
with or without its semicolon, a `ClassRule` is a class with its rows, and `layOut` writes a list
of them.

Such a text is read as one rule for each class rule, and each block as declarations and
nothing else (`map_unplaced_parseStylesheet_layOut`, `firstIssue?_parseBlock_bodyOf`).  That is so
whether or not semicolons are missing: where one is missing, the grammar sees a value that goes
on in the next row.  A value is a flat text, so the lexemes of a row are known but for those
of its value, and of these it is enough to know that they are flat.
-/

namespace StyleAudit.Extract

open Css

/-! ## Rows, rules and their layout -/

/-- A declaration in a row of its own. -/
structure Row where
  name : Text
  value : Text
  /-- Whether the row ends in a semicolon. -/
  ended : Bool
  /-- A property name is a letter and more letters, digits and hyphens. -/
  isName : ∃ c t, name = c :: t ∧ c.isAlpha = true ∧ ∀ x ∈ t, x.isAlphanum = true ∨ x = '-'
  value_ne_nil : value ≠ []
  /-- A value is made of letters, digits, spaces and a few marks. -/
  isValue : ∀ x ∈ value, x.isAlphanum = true ∨ x ∈ [' ', '#', '%', '.', ',', '-']
  trimmed : Text.trim value = value

/-- A rule for one class. -/
structure ClassRule where
  ident : Text
  rows : List Row
  /-- A class is named by an identifier, written without escapes. -/
  isIdent : nameStartsAt ident = true ∧ ∀ x ∈ ident, isNameChar x = true
  rows_ne_nil : rows ≠ []

/-- The declaration of a row, without its semicolon. -/
def Row.line (r : Row) : Text := r.name ++ ": ".toList ++ r.value

/-- A row without its indentation. -/
def Row.text (r : Row) : Text := r.line ++ (if r.ended then [';'] else [])

/-- A class rule, written over as many lines as it has rows, and two more. -/
def ClassRule.layOut (b : ClassRule) : Text :=
  '.' :: b.ident ++ " \x7b\n".toList ++ b.rows.flatMap (fun r => "  ".toList ++ r.text ++ ['\n']) ++
    "\x7d\n".toList

/-- A stylesheet of class rules. -/
def layOut (sheet : List ClassRule) : Text := sheet.flatMap ClassRule.layOut

example : layOut [⟨"a".toList,
      [⟨"color".toList, "red".toList, false, ⟨'c', "olor".toList, by decide⟩, by decide, by decide,
        by decide⟩], by decide, by decide⟩] = ".a \x7b\n  color: red\n\x7d\n".toList := by
  decide

/-- The first row of a rule that lacks its semicolon although another row follows. -/
def ClassRule.firstOpen? (b : ClassRule) : Option Row := b.rows.dropLast.find? fun r => !r.ended

/-- The first row of a stylesheet that lacks its semicolon although another row of the same
rule follows. -/
def firstOpen? (sheet : List ClassRule) : Option Row := sheet.findSome? ClassRule.firstOpen?

/-! ## The characters of a row -/

section Row

variable (r : Row)

theorem Row.mem_name {x : Char} (h : x ∈ r.name) : x.isAlphanum = true ∨ x = '-' := by
  obtain ⟨c, t, hname, hc, ht⟩ := r.isName
  rw [hname] at h
  rcases List.mem_cons.mp h with rfl | h
  · exact .inl (isAlphanum_of_isAlpha hc)
  · exact ht x h

theorem Row.isNameChar_of_mem_name {x : Char} (h : x ∈ r.name) : isNameChar x = true := by
  rcases r.mem_name h with hx | rfl
  · rw [isNameChar, hx]
    rfl
  · rfl

theorem isFlat_of_isNameChar {t : Text} (h : ∀ x ∈ t, isNameChar x = true) : IsFlat t := by
  intro x hx hmem
  have hfalse := (by decide : ∀ c ∈ brackets, isNameChar c = false) x hmem
  rw [h x hx] at hfalse
  cases hfalse

theorem Row.isFlat_value : IsFlat r.value := by
  intro x hx hmem
  rcases r.isValue x hx with hx | hx
  · have hfalse := (by decide : ∀ c ∈ brackets, c.isAlphanum = false) x hmem
    rw [hx] at hfalse
    cases hfalse
  · exact absurd hx ((by decide : ∀ c ∈ brackets, c ∉ [' ', '#', '%', '.', ',', '-']) x hmem)

theorem Row.isSpace_getLast?_value : ∀ x ∈ r.value.getLast?, isSpace x = false := by
  intro x hx
  rw [Bool.eq_false_iff]
  intro hspace
  have hlast := (Text.not_isBlank_of_trim_eq_self r.trimmed).2 x hx
  rw [isBlank_of_isSpace hspace] at hlast
  cases hlast

/-- A row begins with a letter. -/
theorem Row.exists_line_eq : ∃ c t, r.line = c :: t ∧ c.isAlpha = true := by
  obtain ⟨c, t, hname, hc, -⟩ := r.isName
  exact ⟨c, t ++ ": ".toList ++ r.value, by rw [Row.line, hname]; rfl, hc⟩

end Row

/-! ## The lexemes of a row -/

/-- A property name, whatever stands apart behind it. -/
theorem Row.pieces_name_append (r : Row) {d : Text} (hd : StandsApart d) :
    pieces (r.name ++ d) = ⟨.ident r.name, r.name, .start⟩ :: pieces d := by
  obtain ⟨c, t, hname, hc, -⟩ := r.isName
  have ht : ∀ x ∈ t, isNameChar x = true := fun x hx =>
    r.isNameChar_of_mem_name (by rw [hname]; exact List.mem_cons_of_mem c hx)
  rw [hname]
  exact pieces_word_append hc ht hd

/-- The lexemes of a declaration. -/
def Row.linePieces (r : Row) : List Lexeme :=
  ⟨.ident r.name, r.name, .start⟩ :: ⟨.colon, [':'], .start⟩ :: ⟨.space, [' '], .start⟩ ::
    pieces r.value

/-- The semicolon of a row, if it has one. -/
def semicolonPieces (ended : Bool) : List Lexeme :=
  if ended then [⟨.semicolon, [';'], .start⟩] else []

/-- The lexemes of a row, its indentation in front. -/
def Row.pieces (r : Row) : List Lexeme :=
  ⟨.space, ['\n', ' ', ' '], .start⟩ :: r.linePieces ++ semicolonPieces r.ended

theorem Row.takeWhile_value (r : Row) (d : Text) : (r.value ++ d).takeWhile isSpace = [] ∧
    (r.value ++ d).dropWhile isSpace = r.value ++ d := by
  have hfirst := (Text.not_isBlank_of_trim_eq_self r.trimmed).1
  cases hvalue : r.value with
  | nil => exact absurd hvalue r.value_ne_nil
  | cons c t =>
    rw [hvalue] at hfirst
    have hc : ¬ isSpace c = true := by
      intro hs
      have := hfirst c rfl
      rw [isBlank_of_isSpace hs] at this
      cases this
    exact ⟨List.takeWhile_cons_of_neg hc, List.dropWhile_cons_of_neg hc⟩

theorem Row.pieces_line_append (r : Row) {d : Text} (hd : StandsApart d) :
    Css.pieces (r.line ++ d) = r.linePieces ++ Css.pieces d := by
  have hcolon : StandsApart (':' :: ' ' :: (r.value ++ d)) := standsApart_cons.mpr (by decide)
  have htext : r.line ++ d = r.name ++ (':' :: ' ' :: (r.value ++ d)) := by
    simp [Row.line]
  rw [htext, r.pieces_name_append hcolon, pieces_colon, pieces_of_isSpace rfl,
    (r.takeWhile_value d).1, (r.takeWhile_value d).2,
    pieces_append_of_isFlat r.isFlat_value r.isSpace_getLast?_value hd]
  rfl

/-- The inside of a block of rows, from the line feed behind its brace on. -/
def bodyOf (rows : List Row) : Text := rows.flatMap fun r => '\n' :: ' ' :: ' ' :: r.text

theorem standsApart_bodyOf_append (rows : List Row) {d : Text} (hd : StandsApart d) :
    StandsApart (bodyOf rows ++ d) := by
  cases rows with
  | nil => exact hd
  | cons r rows => exact standsApart_cons.mpr (by decide)

/-- **The lexemes of a block of rows** are those of the rows, one after the other. -/
theorem pieces_bodyOf_append (rows : List Row) {d : Text} (hd : StandsApart d) :
    pieces (bodyOf rows ++ d) = rows.flatMap Row.pieces ++ pieces d := by
  induction rows with
  | nil => rfl
  | cons r rows ih =>
    have hnext := standsApart_bodyOf_append rows hd
    have htext : bodyOf (r :: rows) ++ d =
        '\n' :: ' ' :: ' ' :: (r.text ++ (bodyOf rows ++ d)) := by
      simp [bodyOf]
    obtain ⟨c, t, hline, hc⟩ := r.exists_line_eq
    have hletter : ¬ isSpace c = true := by
      rw [isSpace_of_isAlpha hc]
      exact Bool.false_ne_true
    have hindent : pieces (bodyOf (r :: rows) ++ d) =
        ⟨.space, ['\n', ' ', ' '], .start⟩ :: pieces (r.text ++ (bodyOf rows ++ d)) := by
      rw [htext, pieces_of_isSpace rfl, List.takeWhile_cons_of_pos rfl,
        List.takeWhile_cons_of_pos rfl, List.dropWhile_cons_of_pos rfl,
        List.dropWhile_cons_of_pos rfl, Row.text, hline, List.cons_append, List.cons_append,
        List.takeWhile_cons_of_neg hletter, List.dropWhile_cons_of_neg hletter]
    rw [hindent, Row.text, List.flatMap_cons, Row.pieces, semicolonPieces]
    by_cases hended : r.ended = true
    · have hsemi : StandsApart (';' :: (bodyOf rows ++ d)) := standsApart_cons.mpr (by decide)
      rw [if_pos hended, if_pos hended, List.append_assoc, List.singleton_append,
        r.pieces_line_append hsemi, pieces_semicolon, ih]
      simp
    · rw [if_neg hended, if_neg hended, List.append_nil, List.append_nil,
        r.pieces_line_append hnext, ih]
      simp

theorem pieces_bodyOf (rows : List Row) : pieces (bodyOf rows) = rows.flatMap Row.pieces := by
  have h := pieces_bodyOf_append rows standsApart_nil
  rwa [List.append_nil, pieces_nil, List.append_nil] at h

/-! ## A block of rows is one run -/

theorem Row.isFlat_of_mem_linePieces {r : Row} {l : Lexeme} (h : l ∈ r.linePieces) :
    l.token.isFlat = true := by
  simp only [Row.linePieces, List.mem_cons] at h
  rcases h with rfl | rfl | rfl | h
  · rfl
  · rfl
  · rfl
  · exact isFlat_of_mem_pieces r.isFlat_value h

/-- The lexemes of a row are flat, but for the semicolon. -/
theorem Row.isFlat_or_semicolon_of_mem_pieces {r : Row} {l : Lexeme} (h : l ∈ r.pieces) :
    l.token.isFlat = true ∨ l.token = .semicolon := by
  rw [Row.pieces, List.cons_append, List.mem_cons, List.mem_append] at h
  rcases h with rfl | h | h
  · exact .inl rfl
  · exact .inl (Row.isFlat_of_mem_linePieces h)
  · rw [semicolonPieces] at h
    split at h
    · rw [List.mem_singleton] at h
      rw [h]
      exact .inr rfl
    · cases h

theorem Row.getLast?_linePieces (r : Row) : ∀ l ∈ r.linePieces.getLast?, l.isBlank = false := by
  intro l hl
  refine not_isBlank_getLast?_pieces r.isFlat_value r.isSpace_getLast?_value l ?_
  cases hvalue : Css.pieces r.value with
  | nil =>
    have hsource := sourceOf_pieces r.value
    rw [hvalue] at hsource
    exact absurd hsource.symm r.value_ne_nil
  | cons k ks =>
    rwa [Row.linePieces, hvalue, List.getLast?_cons_cons, List.getLast?_cons_cons,
      List.getLast?_cons_cons] at hl

theorem Row.getLast?_pieces (r : Row) : ∀ l ∈ r.pieces.getLast?, l.isBlank = false := by
  intro l hl
  rw [Row.pieces, semicolonPieces] at hl
  by_cases hended : r.ended = true
  · rw [if_pos hended, List.getLast?_concat] at hl
    cases hl
    rfl
  · rw [if_neg hended, List.append_nil, Row.linePieces, List.getLast?_cons_cons,
      ← Row.linePieces] at hl
    exact r.getLast?_linePieces l hl

theorem getLast?_flatMap_pieces (rows : List Row) :
    ∀ l ∈ (rows.flatMap Row.pieces).getLast?, l.isBlank = false := by
  rcases List.eq_nil_or_concat rows with rfl | ⟨front, r, rfl⟩
  · intro l hl
    cases hl
  · have hne : r.pieces ≠ [] := List.cons_ne_nil _ _
    rw [List.concat_eq_append, List.flatMap_append, List.flatMap_singleton,
      List.getLast?_append_of_ne_nil _ hne]
    exact r.getLast?_pieces

/-- **A block of rows is read up to its closing brace.** -/
theorem blockAhead_rows (rows : List Row) (t : Text) :
    blockAhead (pieces (bodyOf rows ++ '\n' :: '\x7d' :: t)) = (bodyOf rows, pieces t) := by
  have hd : StandsApart ('\n' :: '\x7d' :: t) := standsApart_cons.mpr (by decide)
  have hend : pieces ('\n' :: '\x7d' :: t) =
      ⟨.space, ['\n'], .start⟩ :: ⟨.closing .curly, ['\x7d'], .start⟩ :: pieces t := by
    rw [pieces_of_isSpace rfl]
    exact congrArg _ (pieces_closeCurly t)
  have hmem : ∀ l ∈ rows.flatMap Row.pieces, l.token.isFlat = true ∨ l.token = .semicolon := by
    intro l hl
    obtain ⟨r, -, hl⟩ := List.mem_flatMap.mp hl
    exact Row.isFlat_or_semicolon_of_mem_pieces hl
  have hrun : valuesUntil (· == .closing .curly) [] (pieces (bodyOf rows ++ '\n' :: '\x7d' :: t)) =
      (rows.flatMap Row.pieces, pieces ('\n' :: '\x7d' :: t)) := by
    rw [pieces_bodyOf_append rows hd]
    refine valuesUntil_append_of_notMem (fun l hl => ?_) (fun l hl => ?_)
      (getLast?_flatMap_pieces rows) (by rw [hend]; rfl)
    · rcases hmem l hl with h | h
      · exact Token.ne_closing_of_isFlat h .curly
      · rw [h]
        rfl
    · rcases hmem l hl with h | h
      · exact Token.nesting_of_isFlat h []
      · rw [h]
        rfl
  have hsource : Lexeme.sourceOf (rows.flatMap Row.pieces) = bodyOf rows := by
    rw [← pieces_bodyOf, sourceOf_pieces]
  simp only [blockAhead, hrun, hsource]
  rw [hend]
  rfl

/-! ## The rules of the stylesheet -/

theorem not_isDigit_of_isNameStart {c : Char} (h : isNameStart c = true) : c.isDigit = false := by
  rw [Bool.eq_false_iff]
  intro hd
  simp only [isNameStart, Bool.or_eq_true, beq_iff_eq, decide_eq_true_eq] at h
  rcases h with ((h | rfl) | rfl) | h
  · rw [isDigit_of_isAlpha h] at hd
    cases hd
  · cases hd
  · cases hd
  · simp only [Char.isDigit, Bool.and_eq_true, decide_eq_true_eq] at hd
    have hle : c.toNat ≤ '9'.toNat := hd.2
    exact absurd (hle.trans_lt (by decide)) (Nat.not_lt.mpr h)

section ClassRule

variable (b : ClassRule)

/-- The lexemes of a class. -/
def ClassRule.head : List Lexeme := ⟨.delim '.', ['.'], .start⟩ :: pieces b.ident

/-- What a class rule is read as, lines aside. -/
def ClassRule.rule : QualifiedRule := ⟨Text.trim ('.' :: b.ident), bodyOf b.rows, 0, 0⟩

theorem ClassRule.isFlat_ident : IsFlat b.ident := isFlat_of_isNameChar b.isIdent.2

theorem ClassRule.isSpace_getLast?_ident : ∀ x ∈ b.ident.getLast?, isSpace x = false := by
  intro x hx
  rw [Bool.eq_false_iff]
  intro hs
  have hfalse := (by decide : ∀ c ∈ boundaries, isNameChar c = false) x
    (mem_boundaries_of_isSpace hs)
  rw [b.isIdent.2 x (List.mem_of_getLast? hx)] at hfalse
  cases hfalse

theorem ClassRule.exists_ident_eq : ∃ c t, b.ident = c :: t ∧ c.isDigit = false := by
  have hstart := b.isIdent.1
  cases hident : b.ident with
  | nil =>
    rw [hident] at hstart
    cases hstart
  | cons c t =>
    refine ⟨c, t, rfl, ?_⟩
    rw [hident] at hstart
    by_cases hy : c = '-'
    · rw [hy]
      rfl
    · have hc : c ≠ '\\' := by
        rintro rfl
        have h := b.isIdent.2 '\\' (by rw [hident]; exact List.mem_cons_self)
        cases h
      rw [nameStartsAt_cons hy hc] at hstart
      exact not_isDigit_of_isNameStart hstart

/-- The dot of a class begins no numeral. -/
theorem ClassRule.pieces_head_append {d : Text} (hd : StandsApart d) :
    pieces ('.' :: (b.ident ++ d)) = b.head ++ pieces d := by
  obtain ⟨c, t, hident, hc⟩ := b.exists_ident_eq
  have hdigit : (b.ident ++ d).takeWhile Char.isDigit = [] := by
    rw [hident, List.cons_append,
      List.takeWhile_cons_of_neg (by rw [hc]; exact Bool.false_ne_true)]
  have hnum : numeralStartsAt ('.' :: (b.ident ++ d)) = false := by
    show (false || !((b.ident ++ d).takeWhile Char.isDigit).isEmpty) = false
    rw [hdigit]
    rfl
  have hahead : Token.ahead '.' ([] ++ (b.ident ++ d)) = (.delim '.', 1) := by
    rw [List.nil_append, Token.ahead, hnum]
    rfl
  rw [ClassRule.head, List.cons_append,
    ← pieces_append_of_isFlat b.isFlat_ident b.isSpace_getLast?_ident hd]
  exact pieces_of_ahead (v := []) hahead

theorem ClassRule.isFlat_of_mem_head {l : Lexeme} (h : l ∈ b.head) : l.token.isFlat = true := by
  rcases List.mem_cons.mp h with rfl | h
  · rfl
  · exact isFlat_of_mem_pieces b.isFlat_ident h

theorem ClassRule.getLast?_head : ∀ l ∈ b.head.getLast?, l.isBlank = false := by
  intro l hl
  rw [ClassRule.head] at hl
  cases hident : pieces b.ident with
  | nil =>
    rw [hident] at hl
    cases hl
    rfl
  | cons k ks =>
    rw [hident, List.getLast?_cons_cons, ← hident] at hl
    exact not_isBlank_getLast?_pieces b.isFlat_ident b.isSpace_getLast?_ident l hl

theorem ClassRule.sourceOf_head : Lexeme.sourceOf b.head = '.' :: b.ident := by
  rw [ClassRule.head, Lexeme.sourceOf_cons, sourceOf_pieces]
  rfl

/-- The layout of a rule with the line feeds where the lexemes have them. -/
theorem ClassRule.layOut_append (t : Text) :
    b.layOut ++ t = '.' :: (b.ident ++
      (' ' :: '\x7b' :: (bodyOf b.rows ++ '\n' :: '\x7d' :: '\n' :: t))) := by
  have hrows : ∀ rows : List Row, '\n' :: (rows.flatMap fun r => "  ".toList ++ r.text ++ ['\n']) =
      bodyOf rows ++ ['\n'] := by
    intro rows
    induction rows with
    | nil => rfl
    | cons r rows ih =>
      rw [List.flatMap_cons, bodyOf, List.flatMap_cons, List.append_assoc, List.append_assoc,
        List.singleton_append, ih, bodyOf]
      simp
  have hbody := hrows b.rows
  have htext : b.layOut ++ t = '.' :: (b.ident ++ (' ' :: '\x7b' ::
      ('\n' :: (b.rows.flatMap fun r => "  ".toList ++ r.text ++ ['\n']) ++
        '\x7d' :: '\n' :: t))) := by
    simp [ClassRule.layOut]
  rw [htext, hbody]
  simp

/-- A class and the block behind it are read as one rule. -/
theorem ClassRule.qualifiedAhead_head (eof : Place) (t : Text) :
    unplacedResult (qualifiedAhead false eof (b.head ++
        pieces (' ' :: '\x7b' :: (bodyOf b.rows ++ '\n' :: '\x7d' :: t)))).1 = .ok b.rule ∧
      (qualifiedAhead false eof (b.head ++
        pieces (' ' :: '\x7b' :: (bodyOf b.rows ++ '\n' :: '\x7d' :: t)))).2 = pieces t := by
  have hskip := skipBlanks_pieces_block (bodyOf b.rows ++ '\n' :: '\x7d' :: t)
  have hends : endsHere opensBlock
      (pieces (' ' :: '\x7b' :: (bodyOf b.rows ++ '\n' :: '\x7d' :: t))) = true := by
    rw [pieces_block]
    rfl
  generalize pieces (' ' :: '\x7b' :: (bodyOf b.rows ++ '\n' :: '\x7d' :: t)) = rest
    at hskip hends ⊢
  have hrun : valuesUntil opensBlock [] (b.head ++ rest) = (b.head, rest) :=
    valuesUntil_append_of_notMem
      (fun l hl => Token.opensBlock_of_isFlat (b.isFlat_of_mem_head hl))
      (fun l hl => Token.nesting_of_isFlat (b.isFlat_of_mem_head hl) [])
      b.getLast?_head hends
  have hcustom : customPropertyAhead (b.head ++ rest) = false := rfl
  simp only [qualifiedAhead, hcustom, Bool.false_eq_true, if_false, hrun, hskip,
    blockAhead_rows, b.sourceOf_head]
  exact ⟨rfl, rfl⟩

/-- **A class rule is read as what it is**, and then what stands behind it. -/
theorem map_unplaced_rulesFrom_layOut (eof : Place) (first : Bool) (t : Text) :
    (rulesFrom eof first (pieces (b.layOut ++ t))).map Rule.unplaced =
      .qualified b.rule :: (rulesFrom eof false (pieces t)).map Rule.unplaced := by
  have hread := b.qualifiedAhead_head eof ('\n' :: t)
  have hhead : b.head = ⟨.delim '.', ['.'], .start⟩ :: pieces b.ident := rfl
  rw [b.layOut_append, b.pieces_head_append (standsApart_cons.mpr (by decide))]
  rw [hhead, List.cons_append] at hread ⊢
  rw [rulesFrom_of_qualified rfl (fun _ => Token.noConfusion), List.map_cons,
    Rule.unplaced_ofResult, hread.1, hread.2, rulesFrom_pieces_of_isSpace rfl]
  rfl

end ClassRule

/-- **A stylesheet that is laid out is read as the rules it is made of.** -/
theorem map_unplaced_parseStylesheet_layOut (sheet : List ClassRule) :
    (parseStylesheet (layOut sheet)).map Rule.unplaced =
      sheet.map fun b => .qualified b.rule := by
  have hrules : ∀ first, (rulesFrom .start first (pieces (layOut sheet))).map Rule.unplaced =
      sheet.map fun b => .qualified b.rule := by
    induction sheet with
    | nil =>
      intro first
      show (rulesFrom .start first (pieces [])).map Rule.unplaced = []
      rw [pieces_nil, rulesFrom_nil]
      rfl
    | cons b sheet ih =>
      intro first
      rw [layOut, List.flatMap_cons, map_unplaced_rulesFrom_layOut, ← layOut, ih, List.map_cons]
  rw [map_unplaced_parseStylesheet .start, hrules]

/-! ## The items of a block -/

/-- Lexemes that a value consists of: flat ones, of which the last one is not blank. -/
structure IsValueRun (run : List Lexeme) : Prop where
  isFlat : ∀ l ∈ run, l.token.isFlat = true
  getLast? : ∀ l ∈ run.getLast?, l.isBlank = false

theorem IsValueRun.valuesUntil_append {run rest : List Lexeme} (h : IsValueRun run)
    (hrest : endsHere endsHead rest = true) :
    valuesUntil endsHead [] (run ++ rest) = (run, rest) :=
  valuesUntil_append_of_notMem (fun l hl => Token.endsHead_of_isFlat (h.isFlat l hl))
    (fun l hl => Token.nesting_of_isFlat (h.isFlat l hl) []) h.getLast? hrest

/-- A value that takes in a row. -/
theorem IsValueRun.append_row {run : List Lexeme} (h : IsValueRun run) (r : Row) :
    IsValueRun (run ++ ⟨.space, ['\n', ' ', ' '], .start⟩ :: r.linePieces) where
  isFlat := by
    intro l hl
    rcases List.mem_append.mp hl with hl | hl
    · exact h.isFlat l hl
    · rcases List.mem_cons.mp hl with rfl | hl
      · rfl
      · exact Row.isFlat_of_mem_linePieces hl
  getLast? := by
    intro l hl
    rw [List.getLast?_append_of_ne_nil _ (List.cons_ne_nil _ _), Row.linePieces,
      List.getLast?_cons_cons, ← Row.linePieces] at hl
    exact r.getLast?_linePieces l hl

/-- The value of a row, with the space behind the colon. -/
theorem Row.isValueRun (r : Row) : IsValueRun (⟨.space, [' '], .start⟩ :: Css.pieces r.value) where
  isFlat := by
    intro l hl
    rcases List.mem_cons.mp hl with rfl | hl
    · rfl
    · exact isFlat_of_mem_pieces r.isFlat_value hl
  getLast? := by
    intro l hl
    refine r.getLast?_linePieces l ?_
    rwa [Row.linePieces, List.getLast?_cons_cons, List.getLast?_cons_cons]

/-- A value in front of rows goes on until a row ends in a semicolon. -/
theorem IsValueRun.exists_valuesUntil_rows {run : List Lexeme} (h : IsValueRun run) (ended : Bool)
    (rows : List Row) :
    ∃ value rest, valuesUntil endsHead []
        (run ++ semicolonPieces ended ++ rows.flatMap Row.pieces) = (value, rest) ∧
      (rest = [] ∨ ∃ later, later <:+ rows ∧
        rest = ⟨.semicolon, [';'], .start⟩ :: later.flatMap Row.pieces) := by
  induction rows generalizing run ended with
  | nil =>
    cases ended with
    | true =>
      refine ⟨run, [⟨.semicolon, [';'], .start⟩], ?_, .inr ⟨[], List.suffix_rfl, rfl⟩⟩
      rw [List.append_assoc]
      exact h.valuesUntil_append rfl
    | false =>
      refine ⟨run, [], ?_, .inl rfl⟩
      rw [List.append_assoc]
      exact h.valuesUntil_append rfl
  | cons r rows ih =>
    cases ended with
    | true =>
      refine ⟨run, ⟨.semicolon, [';'], .start⟩ :: (r :: rows).flatMap Row.pieces, ?_,
        .inr ⟨r :: rows, List.suffix_rfl, rfl⟩⟩
      rw [List.append_assoc]
      exact h.valuesUntil_append rfl
    | false =>
      -- the value takes in the next row
      obtain ⟨value, rest, hvalue, hrest⟩ := ih (h.append_row r) r.ended
      refine ⟨value, rest, ?_, hrest.imp_right ?_⟩
      · rw [← hvalue]
        simp [Row.pieces, semicolonPieces]
      · rintro ⟨later, hlater, rfl⟩
        exact ⟨later, hlater.trans (List.suffix_cons r rows), rfl⟩

/-- **Each row begins a declaration**, and what is left are later rows. -/
theorem Row.exists_declarationAhead (r : Row) (eof : Place) (rows : List Row) :
    ∃ d later, later <:+ rows ∧
      declarationAhead eof r.name (⟨.colon, [':'], .start⟩ :: ⟨.space, [' '], .start⟩ ::
        Css.pieces r.value ++ semicolonPieces r.ended ++ rows.flatMap Row.pieces) =
          .ok (d, later.flatMap Row.pieces) := by
  obtain ⟨value, rest, hvalue, hrest⟩ := r.isValueRun.exists_valuesUntil_rows r.ended rows
  have hcolon : ∀ ls : List Lexeme, skipBlanks (⟨.colon, [':'], .start⟩ :: ls) =
      ⟨.colon, [':'], .start⟩ :: ls := fun _ => rfl
  simp only [List.cons_append] at hvalue
  simp only [List.cons_append, declarationAhead, hcolon, reduceCtorEq, if_false, if_true, hvalue]
  rcases hrest with rfl | ⟨later, hlater, rfl⟩
  · exact ⟨_, [], List.nil_suffix, rfl⟩
  · exact ⟨_, later, hlater, rfl⟩

/-- **The items of a block of rows are declarations.** -/
theorem exists_eq_declaration_of_mem_itemsFrom (eof : Place) :
    ∀ (rows : List Row), ∀ item ∈ itemsFrom eof (rows.flatMap Row.pieces),
      ∃ d, item = .declaration d
  | [], item, h => by
    rw [List.flatMap_nil, itemsFrom_nil] at h
    cases h
  | r :: rows, item, h => by
    obtain ⟨d, later, hlater, hd⟩ := r.exists_declarationAhead eof rows
    have hpieces : (r :: rows).flatMap Row.pieces =
        ⟨.space, ['\n', ' ', ' '], .start⟩ :: ⟨.ident r.name, r.name, .start⟩ ::
          (⟨.colon, [':'], .start⟩ :: ⟨.space, [' '], .start⟩ :: Css.pieces r.value ++
            semicolonPieces r.ended ++ rows.flatMap Row.pieces) := by
      rw [List.flatMap_cons, Row.pieces, Row.linePieces]
      simp
    rw [hpieces, itemsFrom_of_separates rfl, itemsFrom_of_declaration rfl hd] at h
    rcases List.mem_cons.mp h with rfl | h
    · exact ⟨d, rfl⟩
    · have hshort := hlater.length_le
      exact exists_eq_declaration_of_mem_itemsFrom eof later item h
termination_by rows => rows.length
decreasing_by
  simp only [List.length_cons]
  omega

/-- **A block of rows has no issue**, whichever semicolons are missing. -/
theorem firstIssue?_parseBlock_bodyOf (rows : List Row) :
    Item.firstIssue? (parseBlock (bodyOf rows)) = none := by
  have hitems := map_unplaced_parseBlock .start (bodyOf rows)
  rw [pieces_bodyOf] at hitems
  rw [Item.firstIssue?, List.findSome?_eq_none_iff]
  intro item hitem
  have hmem : item.unplaced ∈ (parseBlock (bodyOf rows)).map Item.unplaced :=
    List.mem_map_of_mem hitem
  rw [hitems] at hmem
  obtain ⟨found, hfound, heq⟩ := List.mem_map.mp hmem
  obtain ⟨d, rfl⟩ := exists_eq_declaration_of_mem_itemsFrom .start rows found hfound
  cases item with
  | declaration => rfl
  | rule r => cases heq
  | error i => cases heq

end StyleAudit.Extract
