import StyleAudit.Text.Basic

/-!
# Cutting a text at a character

Lines are cut at line feeds and paths at slashes.  `Text.splitOn` keeps whatever stands
between two separators, the empty text included, so there is always a first piece
(`splitOn_ne_nil`) and nothing but the separators is lost (`joinWith_splitOn`).
-/

namespace StyleAudit.Text

/-- The stretches between the separators, in order; the empty text is one empty
stretch. -/
def splitOn (sep : Char) : Text → List Text
  | [] => [[]]
  | c :: t =>
    if c = sep then [] :: splitOn sep t
    else
      match splitOn sep t with
      | [] => [[c]]
      | p :: ps => (c :: p) :: ps

/-- Pieces put back together with a separator between each two. -/
def joinWith (sep : Char) : List Text → Text
  | [] => []
  | [p] => p
  | p :: ps => p ++ sep :: joinWith sep ps

theorem splitOn_ne_nil (sep : Char) (t : Text) : splitOn sep t ≠ [] := by
  cases t with
  | nil => simp [splitOn]
  | cons c t =>
    by_cases h : c = sep
    · simp [splitOn, h]
    · simp only [splitOn, h, if_false]
      split <;> simp

theorem joinWith_splitOn (sep : Char) (t : Text) : joinWith sep (splitOn sep t) = t := by
  induction t with
  | nil => rfl
  | cons c t ih =>
    obtain ⟨p, ps, hp⟩ := List.exists_cons_of_ne_nil (splitOn_ne_nil sep t)
    rw [hp] at ih
    by_cases h : c = sep
    · simp [splitOn, h, hp, joinWith, ih]
    · simp only [splitOn, h, if_false, hp]
      cases ps with
      | nil => simpa [joinWith] using ih
      | cons q qs => simpa [joinWith] using ih

/-- A piece holds no separator. -/
theorem not_mem_of_mem_splitOn {sep : Char} {t p : Text} (h : p ∈ splitOn sep t) : sep ∉ p := by
  induction t generalizing p with
  | nil => simp_all [splitOn]
  | cons c t ih =>
    obtain ⟨q, qs, hq⟩ := List.exists_cons_of_ne_nil (splitOn_ne_nil sep t)
    by_cases hc : c = sep
    · simp only [splitOn, hc, if_true, List.mem_cons] at h
      rcases h with h | h
      · simp [h]
      · exact ih h
    · simp only [splitOn, hc, if_false, hq, List.mem_cons] at h
      rcases h with h | h
      · have := ih (p := q) (by simp [hq])
        simp only [h, List.mem_cons, not_or]
        exact ⟨fun e => hc e.symm, this⟩
      · exact ih (by simp [hq, h])

end StyleAudit.Text
