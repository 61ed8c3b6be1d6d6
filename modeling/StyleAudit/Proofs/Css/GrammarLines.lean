import StyleAudit.Proofs.Css.LineEnds
import StyleAudit.Proofs.Text.SourceLines

/-!
# The lines of the grammar

To the grammar a line ends at a line feed, at a form feed and at a carriage return, and a carriage
return with a line feed behind it is one line end (`grammarLines`).  A source line ends at a line
feed only.  The line ends that are none to a source line are *loose*: form feeds, and carriage
returns without a line feed behind them (`looseEnds`).

Behind a text with loose line ends the grammar counts more lines than there are source lines
(`lineEnds_eq_count_add`).  Behind any other the two counts agree, and the line of the grammar that
begins there is the front of the stretch between line feeds that begins there
(`exists_line_of_looseEnds`).
-/

namespace StyleAudit.Css

open Text (splitLines)

/-- The lines of a text as the grammar counts them. -/
def grammarLines : Text → List Text
  | '\r' :: '\n' :: t => [] :: grammarLines t
  | c :: t =>
    if isNewline c then [] :: grammarLines t
    else (grammarLines t).modifyHead (c :: ·)
  | [] => [[]]

/-- How many lines end in the text otherwise than at a line feed. -/
def looseEnds : Text → Nat
  | '\r' :: '\n' :: t => looseEnds t
  | c :: t => if c = '\r' ∨ c = '\x0c' then looseEnds t + 1 else looseEnds t
  | [] => 0

example : grammarLines "a\r\nb\rc\x0c".toList = [['a'], ['b'], ['c'], []] := by decide

/-! ## Counting -/

section LooseEnds

variable {c : Char} {t : Text}

theorem grammarLines_cons (hpair : ∀ u, c = '\r' → t = '\n' :: u → False) :
    grammarLines (c :: t) =
      if isNewline c then [] :: grammarLines t else (grammarLines t).modifyHead (c :: ·) := by
  rw [grammarLines]
  exact hpair

theorem lineEnds_cons (hpair : ∀ u, c = '\r' → t = '\n' :: u → False) :
    lineEnds (c :: t) = if isNewline c then lineEnds t + 1 else lineEnds t := by
  rw [lineEnds]
  exact hpair

theorem looseEnds_cons (hpair : ∀ u, c = '\r' → t = '\n' :: u → False) :
    looseEnds (c :: t) = if c = '\r' ∨ c = '\x0c' then looseEnds t + 1 else looseEnds t := by
  rw [looseEnds]
  exact hpair

/-- A line end that is not loose is a line feed. -/
theorem isNewline_iff_of_not_loose (hc : ¬ (c = '\r' ∨ c = '\x0c')) :
    isNewline c = true ↔ c = '\n' := by
  simp only [isNewline, Bool.or_eq_true, beq_iff_eq]
  rw [not_or] at hc
  exact ⟨fun h => (h.resolve_right hc.2).resolve_right hc.1, fun h => .inl (.inl h)⟩

end LooseEnds

/-- **There is one line more than there are line ends.** -/
theorem length_grammarLines (t : Text) : (grammarLines t).length = lineEnds t + 1 := by
  fun_induction grammarLines t with
  | case1 t ih => rw [List.length_cons, ih, lineEnds]
  | case2 c t hpair hc ih => rw [List.length_cons, ih, lineEnds_cons hpair, if_pos hc]
  | case3 c t hpair hc ih => rw [List.length_modifyHead, ih, lineEnds_cons hpair, if_neg hc]
  | case4 => rfl

/-- **Line ends are line feeds and loose ones.** -/
theorem lineEnds_eq_count_add (t : Text) : lineEnds t = t.count '\n' + looseEnds t := by
  fun_induction looseEnds t with
  | case1 t ih =>
    rw [lineEnds, ih, List.count_cons_of_ne (by decide), List.count_cons_self]
    omega
  | case2 c t hpair hc ih =>
    have hnew : isNewline c = true := by rcases hc with rfl | rfl <;> rfl
    have hfeed : c ≠ '\n' := by rcases hc with rfl | rfl <;> decide
    rw [lineEnds_cons hpair, if_pos hnew, ih, List.count_cons_of_ne hfeed]
    omega
  | case3 c t hpair hc ih =>
    rw [lineEnds_cons hpair, ih]
    by_cases hfeed : c = '\n'
    · rw [if_pos ((isNewline_iff_of_not_loose hc).mpr hfeed), hfeed, List.count_cons_self]
      omega
    · rw [if_neg (mt (isNewline_iff_of_not_loose hc).mp hfeed), List.count_cons_of_ne hfeed]
  | case4 => rfl

/-! ## Lines and stretches -/

theorem splitLines_feed (t : Text) : splitLines ('\n' :: t) = [] :: splitLines t := by
  rw [splitLines, Text.splitOn, if_pos rfl]
  rfl

theorem splitLines_cons {c : Char} (hc : c ≠ '\n') (t : Text) :
    splitLines (c :: t) = (splitLines t).modifyHead (c :: ·) := by
  obtain ⟨first, rest, hfirst⟩ := List.exists_cons_of_ne_nil (Text.splitOn_ne_nil '\n' t)
  rw [splitLines, Text.splitOn, if_neg hc, splitLines, hfirst]
  rfl

/-- The first line of the grammar is the front of the first stretch between line feeds.  Without
loose line ends, at most a carriage return stands behind it there. -/
theorem exists_first_line (t : Text) : ∃ line behind, (grammarLines t)[0]? = some line ∧
    (splitLines t)[0]? = some (line ++ behind) ∧
      (looseEnds t = 0 → ∀ c ∈ behind, c = '\r') := by
  fun_induction grammarLines t with
  | case1 t ih =>
    rw [splitLines_cons (by decide), splitLines_feed]
    exact ⟨[], ['\r'], rfl, rfl, fun _ => List.forall_mem_singleton.mpr rfl⟩
  | case2 c t hpair hc ih =>
    obtain ⟨first, rest, hfirst⟩ := List.exists_cons_of_ne_nil (Text.splitOn_ne_nil '\n' (c :: t))
    refine ⟨[], first, rfl, by rw [splitLines, hfirst]; rfl, fun hloose => ?_⟩
    rw [looseEnds_cons hpair] at hloose
    split at hloose
    next => cases hloose
    next hnot =>
      rw [isNewline_iff_of_not_loose hnot] at hc
      rw [hc, ← splitLines, splitLines_feed] at hfirst
      rw [← (List.cons.inj hfirst).1]
      exact fun x hx => absurd hx List.not_mem_nil
  | case3 c t hpair hc ih =>
    obtain ⟨line, behind, hline, hstretch, hbehind⟩ := ih
    have hfeed : c ≠ '\n' := by
      rintro rfl
      exact hc rfl
    have hnot : ¬ (c = '\r' ∨ c = '\x0c') := by
      rintro (rfl | rfl) <;> exact hc rfl
    rw [splitLines_cons hfeed, List.getElem?_modifyHead_zero, List.getElem?_modifyHead_zero, hline,
      hstretch, looseEnds_cons hpair, if_neg hnot]
    exact ⟨c :: line, behind, rfl, rfl, hbehind⟩
  | case4 => exact ⟨[], [], rfl, rfl, fun _ x hx => absurd hx List.not_mem_nil⟩

/-- **Behind a text without loose line ends** the line of the grammar is the front of the stretch
between line feeds that has the same number.  If there is no loose line end behind that either, at
most a carriage return stands behind the line in the stretch. -/
theorem exists_line_of_looseEnds {front : Text} (h : looseEnds front = 0) (rest : Text) :
    ∃ line behind, (grammarLines (front ++ rest))[lineEnds front]? = some line ∧
      (splitLines (front ++ rest))[lineEnds front]? = some (line ++ behind) ∧
        (looseEnds (front ++ rest) = 0 → ∀ c ∈ behind, c = '\r') := by
  fun_induction looseEnds front with
  | case1 t ih =>
    obtain ⟨line, behind, hline, hstretch, hbehind⟩ := ih h
    refine ⟨line, behind, ?_, ?_, hbehind⟩
    · rw [lineEnds, List.cons_append, List.cons_append, grammarLines, List.getElem?_cons_succ,
        hline]
    · rw [lineEnds, List.cons_append, List.cons_append, splitLines_cons (by decide),
        splitLines_feed, List.getElem?_modifyHead_succ, List.getElem?_cons_succ, hstretch]
  | case2 c t hpair hc ih => cases h
  | case3 c t hpair hc ih =>
    obtain ⟨line, behind, hline, hstretch, hbehind⟩ := ih h
    have hpair' : ∀ u, c = '\r' → t ++ rest = '\n' :: u → False := fun _ hreturn =>
      absurd (.inl hreturn) hc
    rw [List.cons_append, lineEnds_cons hpair, grammarLines_cons hpair', looseEnds_cons hpair',
      if_neg hc]
    by_cases hfeed : c = '\n'
    · rw [if_pos ((isNewline_iff_of_not_loose hc).mpr hfeed),
        if_pos ((isNewline_iff_of_not_loose hc).mpr hfeed), hfeed, splitLines_feed,
        List.getElem?_cons_succ, List.getElem?_cons_succ]
      exact ⟨line, behind, hline, hstretch, hbehind⟩
    · rw [if_neg (mt (isNewline_iff_of_not_loose hc).mp hfeed),
        if_neg (mt (isNewline_iff_of_not_loose hc).mp hfeed), splitLines_cons hfeed,
        List.getElem?_modifyHead, List.getElem?_modifyHead, hline, hstretch]
      split
      · exact ⟨c :: line, behind, rfl, rfl, hbehind⟩
      · exact ⟨line, behind, rfl, rfl, hbehind⟩
  | case4 => exact exists_first_line rest

end StyleAudit.Css
