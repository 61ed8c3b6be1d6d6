import StyleAudit.Css.Comments
import StyleAudit.Text.Lines

/-!
# The lines of a text that was written line by line

Cutting at line feeds undoes writing lines one below the other, whether each line has its line
feed behind it (`splitLines_flatMap_append`) or, but for the first one, in front of it
(`splitLines_append_flatMap`).  In the first form an empty line is left at the end.
-/

namespace StyleAudit.Text

variable {sep : Char}

/-- A text without separators is one stretch. -/
theorem splitOn_of_notMem {p : Text} (h : sep ∉ p) : splitOn sep p = [p] := by
  induction p with
  | nil => rfl
  | cons c p ih =>
    have hc : c ≠ sep := by
      rintro rfl
      exact h List.mem_cons_self
    rw [splitOn, if_neg hc, ih fun hmem => h (List.mem_cons_of_mem _ hmem)]

/-- A separator between two texts lies between their stretches. -/
theorem splitOn_append_cons_append (u v : Text) :
    splitOn sep (u ++ sep :: v) = splitOn sep u ++ splitOn sep v := by
  induction u with
  | nil => exact if_pos rfl
  | cons a u ih =>
    obtain ⟨p, ps, hp⟩ := List.exists_cons_of_ne_nil (splitOn_ne_nil sep u)
    rw [List.cons_append, splitOn, splitOn, ih, hp]
    by_cases h : a = sep
    · rw [if_pos h, if_pos h]
      rfl
    · rw [if_neg h, if_neg h]
      rfl

/-- The stretch in front of the first separator is the first one. -/
theorem splitOn_append_cons {p : Text} (h : sep ∉ p) (t : Text) :
    splitOn sep (p ++ sep :: t) = p :: splitOn sep t := by
  rw [splitOn_append_cons_append, splitOn_of_notMem h, List.singleton_append]

/-- A text without separators belongs to the first stretch. -/
theorem splitOn_append_of_notMem {u v p : Text} {ps : List Text} (hu : sep ∉ u)
    (hv : splitOn sep v = p :: ps) : splitOn sep (u ++ v) = (u ++ p) :: ps := by
  induction u with
  | nil => exact hv
  | cons a u ih =>
    have ha : a ≠ sep := by
      rintro rfl
      exact hu List.mem_cons_self
    rw [List.cons_append, splitOn, if_neg ha, ih fun h => hu (List.mem_cons_of_mem _ h)]
    rfl

/-- **Lines with their line feeds behind them.** -/
theorem splitLines_flatMap_append {rows : List Text} (h : ∀ r ∈ rows, '\n' ∉ r) :
    splitLines (rows.flatMap fun r => r ++ ['\n']) = rows ++ [[]] := by
  rw [splitLines]
  induction rows with
  | nil => rfl
  | cons r rows ih =>
    rw [List.flatMap_cons, List.append_assoc, List.singleton_append,
      splitOn_append_cons (h r List.mem_cons_self),
      ih fun m hm => h m (List.mem_cons_of_mem _ hm), List.cons_append]

/-- **Lines with their line feeds in front of them**, but for the first one. -/
theorem splitLines_append_flatMap {r : Text} {rows : List Text} (hr : '\n' ∉ r)
    (h : ∀ r ∈ rows, '\n' ∉ r) :
    splitLines (r ++ rows.flatMap fun r => '\n' :: r) = r :: rows := by
  rw [splitLines]
  induction rows generalizing r with
  | nil => rw [List.flatMap_nil, List.append_nil, splitOn_of_notMem hr]
  | cons m rows ih =>
    rw [List.flatMap_cons, List.cons_append, splitOn_append_cons hr,
      ih (h m List.mem_cons_self) fun k hk => h k (List.mem_cons_of_mem _ hk)]

end StyleAudit.Text

namespace StyleAudit.Css

/-- A text without slashes has no comments. -/
theorem blankComments_of_notMem {t : Text} (h : '/' ∉ t) : blankComments t = t := by
  induction t with
  | nil => rw [blankComments]
  | cons c t ih =>
    have hc : c ≠ '/' := by
      rintro rfl
      exact h List.mem_cons_self
    rw [blankComments, ih fun hmem => h (List.mem_cons_of_mem _ hmem)]
    rintro u rfl
    exact absurd rfl hc

end StyleAudit.Css
