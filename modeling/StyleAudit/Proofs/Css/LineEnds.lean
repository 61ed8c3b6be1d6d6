import StyleAudit.Proofs.Css.Marks

/-!
# Which line a place is on

The lexer counts lines one character at a time and remembers whether it stands right behind a
carriage return (`Place.next`).  Here the line is read off the text in front of the place at once:
it is one more than the number of line ends there (`line_past_start`), where a carriage return
with a line feed behind it is one line end (`lineEnds`).

Line ends of two stretches add up unless the seam goes through such a pair
(`lineEnds_append`).  The brace that opens a block is no carriage return, so behind it they do.

A lexeme of a text stands behind the text of those before it (`exists_front`).  This is what
turns the place where a fault shows into a stretch of the text.
-/

namespace StyleAudit.Css

/-! ## Counting line ends -/

/-- How many lines end in the text; a carriage return and a line feed behind it end one. -/
def lineEnds : Text → Nat
  | '\r' :: '\n' :: t => lineEnds t + 1
  | c :: t => if isNewline c then lineEnds t + 1 else lineEnds t
  | [] => 0

example : lineEnds "a\r\nb\nc\r\rd\x0ce\n\r".toList = 7 := by decide

/-- The place does not stand inside a line end that the text goes on with. -/
def Place.Clear (p : Place) (t : Text) : Prop := p.afterReturn = true → t.head? ≠ some '\n'

theorem Place.clear_of_false {p : Place} {t : Text} (h : p.afterReturn = false) : p.Clear t :=
  fun htrue => absurd (h.symm.trans htrue) Bool.false_ne_true

/-- **The line of a place is the line it started from and the line ends passed.** -/
theorem line_past {p : Place} {t : Text} (h : p.Clear t) :
    (p.past t).line = p.line + lineEnds t := by
  fun_induction lineEnds t generalizing p with
  | case1 t ih =>
    have hreturn : (p.next '\r').next '\n' = ⟨p.line + 1, 1, false⟩ := by
      simp [Place.next]
    rw [Place.past_cons, Place.past_cons, hreturn, ih (Place.clear_of_false rfl)]
    exact Nat.add_right_comm p.line 1 (lineEnds t)
  | case2 c t hpair hc ih =>
    have hnext : (p.next c).line = p.line + 1 ∧ ((p.next c).afterReturn = true → c = '\r') := by
      have hlf : ¬ (c = '\n' ∧ p.afterReturn = true) := fun ⟨hlf, hafter⟩ =>
        h hafter (congrArg some hlf)
      simp only [isNewline, Bool.or_eq_true, beq_iff_eq] at hc
      rw [Place.next, if_neg hlf]
      rcases hc with (rfl | rfl) | rfl <;> simp
    have hclear : (p.next c).Clear t := by
      intro hafter hhead
      obtain ⟨rest, rfl⟩ := List.head?_eq_some_iff.mp hhead
      exact hpair rest (hnext.2 hafter) rfl
    rw [Place.past_cons, ih hclear, hnext.1]
    omega
  | case3 c t hpair hc ih =>
    have hnext : p.next c = ⟨p.line, p.column + units16 c, false⟩ := by
      simp only [isNewline, Bool.or_eq_true, beq_iff_eq, not_or] at hc
      simp [Place.next, hc]
    rw [Place.past_cons, hnext, ih (Place.clear_of_false rfl)]
  | case4 => rfl

/-- A place is right behind a carriage return if the text before it ends in one. -/
theorem afterReturn_past_start (t : Text) :
    (Place.start.past t).afterReturn = true → t.getLast? = some '\r' := by
  intro h
  rcases List.eq_nil_or_concat t with rfl | ⟨u, c, rfl⟩
  · cases h
  · rw [List.concat_eq_append, Place.past_append, Place.past_cons, Place.past_nil,
      Place.next] at h
    rw [List.concat_eq_append, List.getLast?_concat]
    split at h
    · cases h
    · split at h
      · cases h
      · split at h
        next hc => rw [hc]
        next => cases h

/-- **The line behind a stretch at the front of a text** is counted from one. -/
theorem line_past_start (t : Text) : (Place.start.past t).line = 1 + lineEnds t :=
  line_past (Place.clear_of_false rfl)

/-- Line ends add up over a seam that no carriage return stands before. -/
theorem lineEnds_append {t u : Text} (h : t.getLast? ≠ some '\r') :
    lineEnds (t ++ u) = lineEnds t + lineEnds u := by
  have hclear : (Place.start.past t).Clear u := fun hafter =>
    absurd (afterReturn_past_start t hafter) h
  have happend := line_past_start (t ++ u)
  rw [Place.past_append, line_past hclear, line_past_start] at happend
  omega

/-! ## Where lexemes stand -/

theorem exists_placeOf_lexemesFrom {p : Place} {t : Text} {ls : List Lexeme}
    (hls : ls <:+ lexemesFrom p t) :
    ∃ front, front ++ Lexeme.sourceOf ls = t ∧ placeOf (p.past t) ls = p.past front := by
  fun_induction lexemesFrom p t with
  | case1 p =>
    obtain rfl := List.suffix_nil.mp hls
    exact ⟨[], rfl, rfl⟩
  | case2 p c t found taken ih =>
    have hsplit : taken ++ (c :: t).drop found.2 = c :: t := List.take_append_drop _ _
    rcases List.suffix_cons_iff.mp hls with rfl | hls
    · exact ⟨[], by rw [Lexeme.sourceOf_cons, sourceOf_lexemesFrom]; exact hsplit, rfl⟩
    · obtain ⟨front, hfront, hplace⟩ := ih hls
      refine ⟨taken ++ front, by rw [List.append_assoc, hfront, hsplit], ?_⟩
      rw [← Place.past_append, hsplit] at hplace
      rw [hplace, Place.past_append]

/-- **A lexeme stands behind the text of the lexemes before it**; so does the end of the text. -/
theorem exists_front {t : Text} {ls : List Lexeme} (hls : ls <:+ lexemes t) :
    ∃ front, front ++ Lexeme.sourceOf ls = t ∧
      placeOf (endPlace t) ls = Place.start.past front :=
  exists_placeOf_lexemesFrom hls

/-- A lexeme stops where the next one stands. -/
theorem stop_eq_placeOf {t : Text} {e : Lexeme} {ls : List Lexeme}
    (h : e :: ls <:+ lexemes t) : e.stop = placeOf (endPlace t) ls := by
  obtain ⟨front, hfront, hstart⟩ := exists_front h
  obtain ⟨front', hfront', hplace⟩ := exists_front ((List.suffix_cons e ls).trans h)
  have hstart : e.start = Place.start.past front := hstart
  have hcut : front ++ e.text = front' := List.append_cancel_right
    (((List.append_assoc ..).trans hfront).trans hfront'.symm)
  rw [hplace, ← hcut, Place.past_append, ← hstart]
  rfl

/-! ## The brace that opens a block -/

theorem text_of_opensBlock {t : Text} {e : Lexeme} (he : e ∈ lexemes t)
    (h : opensBlock e.token = true) : e.text = ['\x7b'] := by
  have h : e.token = .opening .curly := eq_of_beq h
  exact text_eq_of_mem_lexemes he (by rw [h]; rfl)

/-- What stands in front of the inside of a block ends in the brace that opens it. -/
theorem exists_front_of_opensBlock {t : Text} {e : Lexeme} {block : List Lexeme}
    (hbrace : e :: block <:+ lexemes t) (hopens : opensBlock e.token = true) :
    ∃ outer, outer ++ Lexeme.sourceOf block = t ∧ outer.getLast? = some '\x7b' ∧
      placeOf (endPlace t) block = Place.start.past outer := by
  have htext := text_of_opensBlock (hbrace.mem List.mem_cons_self) hopens
  obtain ⟨outer, houter, hplace⟩ := exists_front ((List.suffix_cons e block).trans hbrace)
  obtain ⟨head, hhead, -⟩ := exists_front hbrace
  rw [Lexeme.sourceOf_cons, htext, ← List.append_assoc] at hhead
  refine ⟨outer, houter, ?_, hplace⟩
  rw [← List.append_cancel_right (hhead.trans houter.symm), List.getLast?_concat]

end StyleAudit.Css
