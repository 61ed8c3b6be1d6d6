import StyleAudit.Text.Basic

/-!
# Text without its comments

The semicolon checks read a stylesheet line by line and must not look into comments.
`blankComments` takes each comment out and leaves the line feeds in it, so that every line
keeps its number.  A comment here is what stands from `/*` to the next `*/`, wherever that
is; one that is never closed stays.
-/

namespace StyleAudit.Css

/-- What stands before the next `*/`, and what stands behind it; nothing if there is
none. -/
def splitAtCommentEnd? : Text → Option (Text × Text)
  | '*' :: '/' :: t => some ([], t)
  | c :: t => (splitAtCommentEnd? t).map fun r => (c :: r.1, r.2)
  | [] => none

theorem length_of_splitAtCommentEnd? {t : Text} {r : Text × Text}
    (h : splitAtCommentEnd? t = some r) : r.2.length < t.length := by
  fun_induction splitAtCommentEnd? t generalizing r with
  | case1 t => cases h; simp only [List.length_cons]; omega
  | case2 c t _ ih =>
    obtain ⟨s, hs, rfl⟩ := Option.map_eq_some_iff.1 h
    have := ih hs
    simp only [List.length_cons]
    omega
  | case3 => cases h

/-- The text with each comment replaced by the line feeds in it. -/
def blankComments : Text → Text
  | '/' :: '*' :: t =>
    match _h : splitAtCommentEnd? t with
    | some (inside, rest) => inside.filter (· == '\n') ++ blankComments rest
    | none => '/' :: '*' :: t
  | c :: t => c :: blankComments t
  | [] => []
termination_by t => t.length
decreasing_by
  · have := length_of_splitAtCommentEnd? _h
    simp only [List.length_cons] at this ⊢; omega
  · simp only [List.length_cons]; omega

end StyleAudit.Css
