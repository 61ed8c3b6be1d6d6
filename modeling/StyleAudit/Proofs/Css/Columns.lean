import Mathlib.Data.List.DropRight
import StyleAudit.Proofs.Css.LineEnds

/-!
# Which column a place is in

The column of a place is one more than the width of what stands before it in its line
(`column_past_start`), and that is the end of the text before it, back to the last line end
(`lastLine`).

Behind two stretches the last line is that of the second one if a line ends in it
(`columnBehind_append_of_lineEnds`); otherwise the last line of the first one goes on in the second
(`columnBehind_append`).  So who reads the second stretch alone counts the columns of its first
line from one, and those of all other lines as they are.
-/

namespace StyleAudit.Css

/-- What stands behind the last line end of the text. -/
def lastLine (t : Text) : Text := t.rtakeWhile fun c => !isNewline c

/-- The width of a text without line ends, in UTF-16 units. -/
def width : Text → Nat
  | [] => 0
  | c :: t => units16 c + width t

/-- The column behind the text, counted from one. -/
def columnBehind (t : Text) : Nat := 1 + width (lastLine t)

example : columnBehind "a\r\nb😀".toList = 4 := by decide

theorem width_append (t u : Text) : width (t ++ u) = width t + width u := by
  induction t with
  | nil => rw [List.nil_append, width, Nat.zero_add]
  | cons c t ih => rw [List.cons_append, width, width, ih, Nat.add_assoc]

theorem width_pos {t : Text} (h : t ≠ []) : 0 < width t := by
  obtain ⟨c, t, rfl⟩ := List.exists_cons_of_ne_nil h
  rw [width, units16]
  split <;> omega

/-! ## Line by line -/

theorem lastLine_concat_of_isNewline {c : Char} (hc : isNewline c = true) (t : Text) :
    lastLine (t ++ [c]) = [] :=
  List.rtakeWhile_concat_neg _ _ _ (by rw [hc]; decide)

theorem lastLine_concat {c : Char} (hc : isNewline c = false) (t : Text) :
    lastLine (t ++ [c]) = lastLine t ++ [c] :=
  List.rtakeWhile_concat_pos _ _ _ (by rw [hc]; rfl)

/-- **The column of the place behind a text.** -/
theorem column_past_start (t : Text) : (Place.start.past t).column = columnBehind t := by
  induction t using List.reverseRecOn with
  | nil => rfl
  | append_singleton t c ih =>
    rw [Place.past_append, Place.past_cons, Place.past_nil, Place.next]
    split
    next h =>
      -- the second half of a line end: the first half began the line already
      obtain ⟨rfl, hafter⟩ := h
      obtain ⟨u, rfl⟩ := List.getLast?_eq_some_iff.mp (afterReturn_past_start t hafter)
      rw [ih, columnBehind, columnBehind, lastLine_concat_of_isNewline (by decide),
        lastLine_concat_of_isNewline (by decide)]
    next hpair =>
      split
      next h =>
        rw [columnBehind, lastLine_concat_of_isNewline (by rcases h with rfl | rfl <;> decide)]
        rfl
      next hfeed =>
        split
        next h =>
          subst h
          rw [columnBehind, lastLine_concat_of_isNewline (by decide)]
          rfl
        next hreturn =>
          have hc : isNewline c = false := by
            rw [not_or] at hfeed
            simp [isNewline, hfeed, hreturn]
          rw [columnBehind, lastLine_concat hc, width_append, ← Nat.add_assoc, ← columnBehind, ← ih]
          rfl

/-! ## Two stretches -/

theorem lineEnds_eq_zero_iff {t : Text} : lineEnds t = 0 ↔ ∀ c ∈ t, isNewline c = false := by
  fun_induction lineEnds t with
  | case1 t ih => exact iff_of_false (by omega) fun h => by cases h '\r' (by simp)
  | case2 c t hpair hc ih =>
    exact iff_of_false (by omega) fun h => by rw [h c (by simp)] at hc; cases hc
  | case3 c t hpair hc ih =>
    rw [ih, List.forall_mem_cons, and_iff_right (Bool.eq_false_iff.mpr hc)]
  | case4 => exact iff_of_true rfl fun c hc => absurd hc List.not_mem_nil

/-- Where no line ends in the second stretch, it goes on in the last line of the first. -/
theorem columnBehind_append {u : Text} (hu : lineEnds u = 0) (t : Text) :
    columnBehind (t ++ u) = columnBehind t + width u := by
  rw [lineEnds_eq_zero_iff] at hu
  induction u using List.reverseRecOn with
  | nil => rw [List.append_nil, width, Nat.add_zero]
  | append_singleton u c ih =>
    have hc : isNewline c = false := hu c (by simp)
    have hu' := ih fun x hx => hu x (List.mem_append_left _ hx)
    rw [columnBehind] at hu'
    rw [← List.append_assoc, columnBehind, lastLine_concat hc, width_append, ← Nat.add_assoc, hu',
      width_append, ← Nat.add_assoc]

/-- Where a line ends in the second stretch, the first one does not matter. -/
theorem columnBehind_append_of_lineEnds {u : Text} (hu : lineEnds u ≠ 0) (t : Text) :
    columnBehind (t ++ u) = columnBehind u := by
  rw [Ne, lineEnds_eq_zero_iff] at hu
  have hlast : lastLine (t ++ u) = lastLine u := by
    induction u using List.reverseRecOn with
    | nil => exact absurd (fun c hc => absurd hc List.not_mem_nil) hu
    | append_singleton u c ih =>
      rw [← List.append_assoc]
      cases hc : isNewline c with
      | true => rw [lastLine_concat_of_isNewline hc, lastLine_concat_of_isNewline hc]
      | false =>
        rw [lastLine_concat hc, lastLine_concat hc, ih fun h => hu ?_]
        intro x hx
        rcases List.mem_append.mp hx with hx | hx
        · exact h x hx
        · rwa [List.mem_singleton.mp hx]
  rw [columnBehind, columnBehind, hlast]

/-- Behind a brace the column is at least the second. -/
theorem one_lt_columnBehind {t : Text} {c : Char} (h : t.getLast? = some c)
    (hc : isNewline c = false) : 1 < columnBehind t := by
  obtain ⟨u, rfl⟩ := List.getLast?_eq_some_iff.mp h
  have hpos : 0 < width (lastLine u ++ [c]) := width_pos (by simp)
  rw [columnBehind, lastLine_concat hc]
  omega

end StyleAudit.Css
