import Mathlib.Data.List.Chain
import StyleAudit.Proofs.Extract.Layout
import StyleAudit.Proofs.Extract.Refusal
import StyleAudit.Proofs.Text.Rows

/-!
# Missing semicolons are found where they are missing

For a stylesheet of class rules that is laid out in rows, the two semicolon checks of
`validate` are exact.  The first one, over the lines of each block, finds the first row that
lacks its semicolon although another row of the block follows (`checkBlockLines_bodyOf`); a
missing semicolon at the end of a block is none.  The second one, over the lines of the whole
stylesheet, is reached only if the first one found nothing, and then finds nothing either
(`checkSheetLines_layOut`).  Neither is forestalled by a failure to read the stylesheet
(`loadSheet_layOut`).

* `validate_layOut` --- what `validate` answers to such a stylesheet.
-/

namespace StyleAudit.Extract

open Css

/-! ## Which lines look unterminated -/

/-- The characters of a row that are neither letters nor digits. -/
def rowMarks : Text := [' ', '#', '%', '.', ',', '-', ':', ';']

section Row

variable (r : Row)

theorem Row.notMem_text {x : Char} (hx : x.isAlphanum = false) (hmark : x ∉ rowMarks) :
    x ∉ r.text := by
  intro hmem
  rw [Row.text, Row.line, List.mem_append, List.mem_append, List.mem_append] at hmem
  rcases hmem with ((hname | hcolon) | hvalue) | hsemi
  · rcases r.mem_name hname with h | rfl
    · rw [hx] at h
      cases h
    · exact hmark (by decide)
  · exact hmark ((by decide : ∀ c ∈ ": ".toList, c ∈ rowMarks) x hcolon)
  · rcases r.isValue x hvalue with h | h
    · rw [hx] at h
      cases h
    · exact hmark ((by decide : ∀ c ∈ [' ', '#', '%', '.', ',', '-'], c ∈ rowMarks) x h)
  · split at hsemi
    · exact hmark ((by decide : ∀ c ∈ [';'], c ∈ rowMarks) x hsemi)
    · cases hsemi

theorem Row.text_of_not_ended (h : r.ended = false) : r.text = r.line := by
  rw [Row.text, h]
  exact List.append_nil _

theorem Row.contains_colon : r.text.contains ':' = true := by
  rw [List.contains_iff_mem, Row.text, Row.line]
  simp

/-- A row ends in its semicolon or in a character of its value. -/
theorem Row.getLast?_text : ∀ x ∈ r.text.getLast?,
    isBlank x = false ∧ (x = ';' ↔ r.ended = true) := by
  intro x hx
  rw [Row.text] at hx
  by_cases hended : r.ended = true
  · rw [if_pos hended, List.getLast?_concat] at hx
    obtain rfl : ';' = x := Option.some.inj hx
    exact ⟨rfl, iff_of_true rfl hended⟩
  · rw [if_neg hended, List.append_nil, Row.line,
      List.getLast?_append_of_ne_nil _ r.value_ne_nil] at hx
    refine ⟨(Text.not_isBlank_of_trim_eq_self r.trimmed).2 x hx, iff_of_false ?_ hended⟩
    rintro rfl
    rcases r.isValue ';' (List.mem_of_getLast? hx) with h | h
    · cases h
    · exact absurd h (by decide)

theorem Row.text_ne_nil : r.text ≠ [] := by
  intro h
  have hcolon := r.contains_colon
  rw [h] at hcolon
  cases hcolon

theorem Row.trim_text : Text.trim r.text = r.text := by
  refine Text.trim_eq_self (fun x hx => ?_) fun x hx => (r.getLast?_text x hx).1
  obtain ⟨c, t, hline, hc⟩ := r.exists_line_eq
  rw [Row.text, hline] at hx
  obtain rfl : c = x := Option.some.inj hx
  exact isBlank_of_isAlpha hc

/-- **A row looks unterminated if it lacks its semicolon.** -/
theorem Row.looksUnterminated_text : looksUnterminated r.text = !r.ended := by
  have hbrace : r.text.contains '\x7d' = false := by
    rw [Bool.eq_false_iff, Ne, List.contains_iff_mem]
    exact r.notMem_text rfl (by decide)
  have hopen : r.text.endsIn '\x7b' = false := by
    rw [Text.endsIn, Bool.eq_false_iff, Ne, beq_iff_eq]
    exact fun h => r.notMem_text rfl (by decide) (List.mem_of_getLast? h)
  have hsemi : r.text.endsIn ';' = r.ended := by
    rw [Text.endsIn, Bool.eq_iff_iff, beq_iff_eq]
    obtain ⟨t, x, htext⟩ := List.eq_nil_or_concat r.text |>.resolve_left r.text_ne_nil
    have hlast : r.text.getLast? = some x := by
      rw [htext, List.concat_eq_append, List.getLast?_concat]
    rw [hlast, Option.some.injEq]
    exact (r.getLast?_text x hlast).2
  rw [looksUnterminated, r.contains_colon, hsemi, hopen, hbrace, Bool.not_false, Bool.and_true,
    Bool.and_true, Bool.true_and]

end Row

/-- The lines of a block behind its first row. -/
def Row.indented (r : Row) : Text := "  ".toList ++ r.text

theorem Row.trim_indented (r : Row) : Text.trim r.indented = r.text := by
  rw [Row.indented, Text.trim_append_of_isBlank (by decide), r.trim_text]

theorem Row.notMem_indented (r : Row) : '\n' ∉ r.indented := by
  intro hmem
  rcases List.mem_append.mp hmem with h | h
  · exact absurd h (by decide)
  · exact r.notMem_text rfl (by decide) h

/-! ## The lines of a block -/

theorem blockGoesOn_indented (r : Row) : blockGoesOn r.indented = true := by
  have hcolon : r.indented.contains ':' = true := by
    have h := r.contains_colon
    rw [List.contains_iff_mem] at h ⊢
    exact List.mem_append_right _ h
  rw [blockGoesOn, hcolon, Bool.true_or]

/-- The first line of a block that looks unterminated and is not the last one is the first
row that is not ended and not the last one. -/
theorem findUnterminated_rows {line : Text} {r : Row} (hline : Text.trim line = r.text)
    (rows : List Row) (n : Nat) :
    (findUnterminated blockGoesOn n (line :: rows.map Row.indented)).map Prod.snd =
      ((r :: rows).dropLast.find? fun r => !r.ended).map Row.line := by
  induction rows generalizing line r n with
  | nil => rfl
  | cons m rows ih =>
    rw [List.map_cons, findUnterminated, hline, r.looksUnterminated_text, blockGoesOn_indented,
      Bool.and_true, List.dropLast_cons_cons, List.find?_cons]
    cases hended : r.ended with
    | true => exact ih m.trim_indented (n + 1)
    | false =>
      rw [Bool.not_false, if_pos rfl, r.text_of_not_ended hended]
      rfl

theorem bodyOf_cons (r : Row) (rows : List Row) :
    bodyOf (r :: rows) = ['\n', ' ', ' '] ++ (r.text ++ (rows.map Row.indented).flatMap
      fun line => '\n' :: line) := by
  rw [bodyOf, List.flatMap_cons, List.flatMap_map]
  rfl

/-- Rows one below the other end in what the last of them ends in. -/
theorem getLast?_rows (r : Row) (rows : List Row) :
    ∀ x ∈ (r.text ++ (rows.map Row.indented).flatMap fun line => '\n' :: line).getLast?,
      isBlank x = false := by
  intro x hx
  rcases List.eq_nil_or_concat rows with rfl | ⟨front, m, rfl⟩
  · rw [List.map_nil, List.flatMap_nil, List.append_nil] at hx
    exact (r.getLast?_text x hx).1
  · have hlast : '\n' :: m.indented = ['\n', ' ', ' '] ++ m.text := rfl
    rw [List.concat_eq_append, List.map_append, List.flatMap_append, List.map_singleton,
      List.flatMap_singleton, hlast, ← List.append_assoc, ← List.append_assoc,
      List.getLast?_append_of_ne_nil _ m.text_ne_nil] at hx
    exact (m.getLast?_text x hx).1

/-- The block of a rule, trimmed, has its rows for lines. -/
theorem splitLines_trim_bodyOf (r : Row) (rows : List Row) :
    Text.splitLines (Text.trim (bodyOf (r :: rows))) = r.text :: rows.map Row.indented := by
  have hfirst : ∀ x ∈ (r.text ++ (rows.map Row.indented).flatMap fun line => '\n' :: line).head?,
      isBlank x = false := by
    obtain ⟨c, t, hline, hc⟩ := r.exists_line_eq
    intro x hx
    rw [Row.text, hline] at hx
    obtain rfl : c = x := Option.some.inj hx
    exact isBlank_of_isAlpha hc
  have hlines : ∀ line ∈ rows.map Row.indented, '\n' ∉ line := by
    intro line hline
    obtain ⟨m, -, rfl⟩ := List.mem_map.mp hline
    exact m.notMem_indented
  rw [bodyOf_cons, Text.trim_append_of_isBlank (by decide),
    Text.trim_eq_self hfirst (getLast?_rows r rows),
    Text.splitLines_append_flatMap (r.notMem_text rfl (by decide)) hlines]

theorem notMem_bodyOf {x : Char} (hx : x.isAlphanum = false) (hmark : x ∉ '\n' :: rowMarks)
    (rows : List Row) : x ∉ bodyOf rows := by
  intro hmem
  obtain ⟨r, -, hmem⟩ := List.mem_flatMap.mp hmem
  have hrow : '\n' :: ' ' :: ' ' :: r.text = ['\n', ' ', ' '] ++ r.text := rfl
  rw [hrow, List.mem_append] at hmem
  rcases hmem with h | h
  · exact hmark ((by decide : ∀ c ∈ ['\n', ' ', ' '], c ∈ '\n' :: rowMarks) x h)
  · exact r.notMem_text hx (fun h => hmark (List.mem_cons_of_mem _ h)) h

/-- **The lines of a block are judged by its rows.**  The failure names the first row that
lacks its semicolon although another one follows. -/
theorem checkBlockLines_bodyOf (b : ClassRule) :
    checkBlockLines (bodyOf b.rows) =
      match b.firstOpen? with
      | some r => .error (.missingSemicolon r.line none)
      | none => .ok () := by
  have hcomments : blankComments (bodyOf b.rows) = bodyOf b.rows :=
    blankComments_of_notMem (notMem_bodyOf rfl (by decide) b.rows)
  rw [checkBlockLines, hcomments, ClassRule.firstOpen?]
  cases hrows : b.rows with
  | nil => exact absurd hrows b.rows_ne_nil
  | cons r rows =>
    have hfound := findUnterminated_rows r.trim_text rows 1
    rw [splitLines_trim_bodyOf]
    cases hopen : (r :: rows).dropLast.find? fun r => !r.ended with
    | none =>
      rw [hopen, Option.map_none, Option.map_eq_none_iff] at hfound
      rw [hfound]
    | some m =>
      rw [hopen, Option.map_some, Option.map_eq_some_iff] at hfound
      obtain ⟨⟨n, line⟩, hfound, hline⟩ := hfound
      obtain rfl : line = m.line := hline
      rw [hfound]

/-! ## The tests that come first -/

theorem ClassRule.notMem_ident (b : ClassRule) {x : Char} (h : isNameChar x = false) :
    x ∉ b.ident := by
  intro hmem
  rw [b.isIdent.2 x hmem] at h
  cases h

theorem ClassRule.layOut_eq_append (b : ClassRule) :
    b.layOut = '.' :: (b.ident ++ (' ' :: '\x7b' :: (bodyOf b.rows ++ ['\n', '\x7d', '\n']))) := by
  have h := b.layOut_append []
  rwa [List.append_nil] at h

/-- The braces of a rule are those around its block. -/
theorem ClassRule.count_layOut (b : ClassRule) {x : Char} (hx : x ∈ ['\x7b', '\x7d']) :
    b.layOut.count x = 1 := by
  have hmarks := (by decide : ∀ c ∈ ['\x7b', '\x7d'], isNameChar c = false ∧
    c.isAlphanum = false ∧ c ∉ '\n' :: rowMarks) x hx
  have hident : b.ident.count x = 0 := List.count_eq_zero.mpr (b.notMem_ident hmarks.1)
  have hbody : (bodyOf b.rows).count x = 0 :=
    List.count_eq_zero.mpr (notMem_bodyOf hmarks.2.1 hmarks.2.2 b.rows)
  rw [b.layOut_eq_append]
  simp only [List.count_cons, List.count_append, List.count_nil, hident, hbody]
  rcases List.mem_cons.mp hx with rfl | hx
  · rfl
  · obtain rfl := List.mem_singleton.mp hx
    rfl

/-- There are no comments in a stylesheet that is laid out. -/
theorem notMem_layOut (sheet : List ClassRule) : '/' ∉ layOut sheet := by
  intro hmem
  obtain ⟨b, -, hmem⟩ := List.mem_flatMap.mp hmem
  have hident : '/' ∉ b.ident := b.notMem_ident rfl
  have hbody : '/' ∉ bodyOf b.rows := notMem_bodyOf rfl (by decide) b.rows
  simp [b.layOut_eq_append, hident, hbody] at hmem

theorem count_layOut (sheet : List ClassRule) :
    (layOut sheet).count '\x7b' = (layOut sheet).count '\x7d' := by
  induction sheet with
  | nil => rfl
  | cons b sheet ih =>
    rw [layOut, List.flatMap_cons, List.count_append, List.count_append, ← layOut, ih,
      b.count_layOut (by decide), b.count_layOut (by decide)]

/-- **A stylesheet that is laid out can be read**, whichever semicolons are missing. -/
theorem loadSheet_layOut (sheet : List ClassRule) :
    loadSheet (layOut sheet) = .ok (parseStylesheet (layOut sheet)) := by
  refine loadSheet_eq_ok_iff.mpr ⟨count_layOut sheet, firstIssue?_eq_none_iff.mpr ?_, rfl⟩
  intro issue hmem
  have hunplaced := List.mem_map_of_mem (f := Rule.unplaced) hmem
  rw [map_unplaced_parseStylesheet_layOut] at hunplaced
  obtain ⟨b, -, hb⟩ := List.mem_map.mp hunplaced
  cases hb

/-! ## The blocks, one after the other -/

/-- A rule is checked by the lines of its block, since the block has no issue. -/
theorem checkRule_of_unplaced {rule : Rule} {b : ClassRule}
    (h : rule.unplaced = .qualified b.rule) :
    checkRule rule = checkBlockLines (bodyOf b.rows) := by
  cases rule with
  | atRule r => cases h
  | error issue => cases h
  | qualified r =>
    have hbody : r.body = bodyOf b.rows := congrArg QualifiedRule.body (Rule.qualified.inj h)
    have hnotEmpty : (bodyOf b.rows).isEmpty = false := by
      cases hrows : b.rows with
      | nil => exact absurd hrows b.rows_ne_nil
      | cons r rows => rfl
    have hitems : checkItems r = .ok () := by
      rw [checkItems, QualifiedRule.items, hbody, firstIssue?_parseBlock_bodyOf]
    rw [checkRule, hitems, hbody, hnotEmpty]
    rfl

/-- The blocks of a stylesheet are judged by their rows, the first one with a missing
semicolon before the others. -/
theorem forM_checkRule {rules : List Rule} {sheet : List ClassRule}
    (h : rules.map Rule.unplaced = sheet.map fun b => .qualified b.rule) :
    rules.forM checkRule =
      match firstOpen? sheet with
      | some r => .error (.missingSemicolon r.line none)
      | none => .ok () := by
  induction sheet generalizing rules with
  | nil =>
    obtain rfl : rules = [] := List.map_eq_nil_iff.mp h
    rfl
  | cons b sheet ih =>
    rw [List.map_cons, List.map_eq_cons_iff] at h
    obtain ⟨rule, rest, rfl, hrule, hrest⟩ := h
    have hfirst : firstOpen? (b :: sheet) = b.firstOpen?.or (firstOpen? sheet) := by
      rw [firstOpen?, List.findSome?_cons]
      cases b.firstOpen? <;> rfl
    rw [forM_cons, checkRule_of_unplaced hrule, checkBlockLines_bodyOf, ih hrest, hfirst]
    cases b.firstOpen? <;> rfl

/-! ## The lines of the stylesheet -/

/-- Nothing is missing between two lines: the first one does not look unterminated, or the
text does not go on in the second one. -/
def InOrder (goesOn : Text → Bool) (line next : Text) : Prop :=
  (looksUnterminated (Text.trim line) && goesOn next) = false

/-- The search finds nothing exactly if all lines are in order. -/
theorem findUnterminated_eq_none_iff {goesOn : Text → Bool} {n : Nat} {lines : List Text} :
    findUnterminated goesOn n lines = none ↔ lines.IsChain (InOrder goesOn) := by
  induction lines generalizing n with
  | nil => exact iff_of_true rfl .nil
  | cons line lines ih =>
    cases lines with
    | nil => exact iff_of_true rfl (.singleton line)
    | cons next rest =>
      rw [findUnterminated, List.isChain_cons_cons, ← ih (n := n + 1), InOrder]
      cases looksUnterminated (Text.trim line) && goesOn next with
      | true => exact iff_of_false (fun h => by cases h) (fun h => by cases h.1)
      | false => exact ⟨fun h => ⟨rfl, h⟩, And.right⟩

/-- A line without colons never looks like a declaration. -/
theorem inOrder_of_notMem {goesOn : Text → Bool} {line : Text} (h : ':' ∉ line) (next : Text) :
    InOrder goesOn line next := by
  have hcolon : (Text.trim line).contains ':' = false := by
    rw [Bool.eq_false_iff, Ne, List.contains_iff_mem]
    exact fun hmem => h ((Text.trim_sublist line).mem hmem)
  rw [InOrder, looksUnterminated, hcolon]
  rfl

/-- The lines of a class rule. -/
def ClassRule.lines (b : ClassRule) : List Text :=
  ('.' :: b.ident ++ " \x7b".toList) :: (b.rows.map Row.indented ++ ["\x7d".toList])

theorem ClassRule.layOut_eq (b : ClassRule) :
    b.layOut = b.lines.flatMap fun line => line ++ ['\n'] := by
  rw [ClassRule.layOut, ClassRule.lines, List.flatMap_cons, List.flatMap_append, List.flatMap_map,
    List.flatMap_singleton]
  simp [Row.indented]

theorem ClassRule.notMem_head_line (b : ClassRule) {x : Char} (h : isNameChar x = false)
    (hmark : x ∉ ['.', ' ', '\x7b']) : x ∉ '.' :: b.ident ++ " \x7b".toList := by
  rw [List.mem_append, List.mem_cons]
  rintro ((rfl | hident) | hbrace)
  · exact hmark (by decide)
  · exact b.notMem_ident h hident
  · exact hmark (List.mem_cons_of_mem _ hbrace)

theorem ClassRule.notMem_lines (b : ClassRule) : ∀ line ∈ b.lines, '\n' ∉ line := by
  intro line hline
  rw [ClassRule.lines, List.mem_cons, List.mem_append] at hline
  rcases hline with rfl | hline | hline
  · exact b.notMem_head_line rfl (by decide)
  · obtain ⟨r, -, rfl⟩ := List.mem_map.mp hline
    exact r.notMem_indented
  · rw [List.mem_singleton.mp hline]
    decide

theorem splitLines_layOut (sheet : List ClassRule) :
    Text.splitLines (layOut sheet) = sheet.flatMap ClassRule.lines ++ [[]] := by
  have htext : layOut sheet =
      (sheet.flatMap ClassRule.lines).flatMap fun line => line ++ ['\n'] := by
    rw [layOut, List.flatMap_assoc]
    exact congrArg (List.flatMap · sheet) (funext ClassRule.layOut_eq)
  rw [htext]
  refine Text.splitLines_flatMap_append fun line hline => ?_
  obtain ⟨b, -, hline⟩ := List.mem_flatMap.mp hline
  exact b.notMem_lines line hline

/-- The rows of a rule with the closing brace below them are in order if only the last one
lacks its semicolon. -/
theorem isChain_rows {rows : List Row} (h : (rows.dropLast.find? fun r => !r.ended) = none) :
    (rows.map Row.indented ++ ["\x7d".toList]).IsChain (InOrder sheetGoesOn) := by
  induction rows with
  | nil => exact .singleton _
  | cons r rows ih =>
    cases rows with
    | nil =>
      refine List.isChain_cons_cons.mpr ⟨?_, .singleton _⟩
      rw [InOrder, (by decide : sheetGoesOn "\x7d".toList = false), Bool.and_false]
    | cons m rows =>
      rw [List.dropLast_cons_cons, List.find?_cons] at h
      cases hended : r.ended with
      | false =>
        rw [hended] at h
        cases h
      | true =>
        rw [hended] at h
        refine List.isChain_cons_cons.mpr ⟨?_, ih h⟩
        rw [InOrder, r.trim_indented, r.looksUnterminated_text, hended]
        rfl

theorem ClassRule.isChain_lines {b : ClassRule} (h : b.firstOpen? = none) :
    b.lines.IsChain (InOrder sheetGoesOn) := by
  refine List.isChain_cons.mpr ⟨fun next _ => ?_, isChain_rows h⟩
  exact inOrder_of_notMem (b.notMem_head_line rfl (by decide)) next

/-- **The lines of a stylesheet are in order if its rows are.** -/
theorem checkSheetLines_layOut {sheet : List ClassRule} (h : firstOpen? sheet = none) :
    checkSheetLines (layOut sheet) = .ok () := by
  have hchain : (sheet.flatMap ClassRule.lines ++ [[]]).IsChain (InOrder sheetGoesOn) := by
    induction sheet with
    | nil => exact .singleton _
    | cons b sheet ih =>
      rw [firstOpen?, List.findSome?_eq_none_iff] at h
      have hrest := ih (List.findSome?_eq_none_iff.mpr fun c hc => h c (List.mem_cons_of_mem b hc))
      rw [List.flatMap_cons, List.append_assoc]
      refine (ClassRule.isChain_lines (h b List.mem_cons_self)).append hrest ?_
      intro line hline next _
      rw [ClassRule.lines, ← List.cons_append, List.getLast?_concat] at hline
      obtain rfl : "\x7d".toList = line := Option.some.inj hline
      exact inOrder_of_notMem (by decide) next
  have hcomments : blankComments (layOut sheet) = layOut sheet :=
    blankComments_of_notMem (notMem_layOut sheet)
  rw [checkSheetLines, hcomments, splitLines_layOut, findUnterminated_eq_none_iff.mpr hchain]

/-- **Missing semicolons are found where they are missing.**  A stylesheet that is laid out in
rows is valid if no row lacks its semicolon that another row of its rule follows; otherwise the
failure names the first row of that kind, and no line number. -/
theorem validate_layOut (sheet : List ClassRule) :
    validate (Utf8.encode (layOut sheet)) =
      match firstOpen? sheet with
      | some r => .error (.missingSemicolon r.line none)
      | none => .ok (layOut sheet) := by
  have hdecode : decodeSheet (Utf8.encode (layOut sheet)) = .ok (layOut sheet) :=
    decodeSheet_eq_ok_iff.mpr (Utf8.decode_encode _)
  have hblocks := forM_checkRule (map_unplaced_parseStylesheet_layOut sheet)
  rw [validate, hdecode]
  show validateText (layOut sheet) = _
  rw [validateText, loadSheet_layOut]
  show (do (parseStylesheet (layOut sheet)).forM checkRule
           checkSheetLines (layOut sheet)
           return layOut sheet) = _
  rw [hblocks]
  cases hopen : firstOpen? sheet with
  | some r => rfl
  | none =>
    rw [checkSheetLines_layOut hopen]
    rfl

end StyleAudit.Extract
