import StyleAudit.Css.Comments
import StyleAudit.Proofs.Text.Coverage

/-!
# Comments as marks on a text

`blankComments` goes through a text and drops the comments as it meets them.  What is left is the
text without the characters that the matches of one pattern cover (`CommentAt`), but for the line
feeds among them (`blankComments_eq_blanked`).  So a line of what is left is a line of the text with
the same number, without what is covered (`splitLines_blankComments`).

A comment that is never closed is no match, and none begins inside it, since there is no `*/`
behind it.
-/

namespace StyleAudit.Css

open Text (Coverage Matches)

/-- A comment at the front of a text: it begins with `/*` and ends with the first `*/` behind
that. -/
def CommentAt (t rest : Text) : Prop :=
  ∃ inside, t = '/' :: '*' :: (inside ++ '*' :: '/' :: rest) ∧ ¬ ['*', '/'] <:+: inside

/-! ## The end of a comment -/

/-- A text that does not begin with the end of a comment. -/
theorem splitAtCommentEnd?_cons {c : Char} {t : Text} (h : ∀ u, c = '*' → t = '/' :: u → False) :
    splitAtCommentEnd? (c :: t) = (splitAtCommentEnd? t).map fun r => (c :: r.1, r.2) := by
  rw [splitAtCommentEnd?]
  exact h

/-- **The text is cut at its first `*/`.** -/
theorem splitAtCommentEnd?_eq_some_iff {t inside rest : Text} :
    splitAtCommentEnd? t = some (inside, rest) ↔
      t = inside ++ '*' :: '/' :: rest ∧ ¬ ['*', '/'] <:+: inside := by
  constructor
  · intro h
    fun_induction splitAtCommentEnd? t generalizing inside with
    | case1 t =>
      cases h
      exact ⟨rfl, fun h => by cases List.infix_nil.mp h⟩
    | case2 c t hend ih =>
      obtain ⟨⟨front, rest'⟩, hfront, hr⟩ := Option.map_eq_some_iff.mp h
      cases hr
      obtain ⟨rfl, hfirst⟩ := ih hfront
      refine ⟨rfl, fun h => ?_⟩
      rcases List.infix_cons_iff.mp h with ⟨s, hs⟩ | h
      · cases hs
        exact hend _ rfl rfl
      · exact hfirst h
    | case3 => cases h
  · rintro ⟨rfl, hfirst⟩
    induction inside with
    | nil => rw [List.nil_append, splitAtCommentEnd?]
    | cons c inside ih =>
      have hrest : ¬ ['*', '/'] <:+: inside := fun h => hfirst (List.infix_cons_iff.mpr (.inr h))
      have hend : ∀ u, c = '*' → inside ++ '*' :: '/' :: rest = '/' :: u → False := by
        rintro u rfl hslash
        cases inside with
        | nil => cases hslash
        | cons d inside =>
          cases hslash
          exact hfirst ⟨[], inside, rfl⟩
      rw [List.cons_append, splitAtCommentEnd?_cons hend, ih hrest]
      rfl

theorem splitAtCommentEnd?_eq_none_iff {t : Text} :
    splitAtCommentEnd? t = none ↔ ¬ ['*', '/'] <:+: t := by
  constructor
  · intro h hinfix
    fun_induction splitAtCommentEnd? t with
    | case1 t => cases h
    | case2 c t hend ih =>
      rcases List.infix_cons_iff.mp hinfix with ⟨s, hs⟩ | hinfix
      · cases hs
        exact hend _ rfl rfl
      · exact ih (Option.map_eq_none_iff.mp h) hinfix
    | case3 => cases List.infix_nil.mp hinfix
  · intro h
    cases hsplit : splitAtCommentEnd? t with
    | none => rfl
    | some r =>
      obtain ⟨rfl, -⟩ := splitAtCommentEnd?_eq_some_iff.mp hsplit
      exact absurd ⟨r.1, r.2, by simp⟩ h

/-! ## One step of the walk -/

theorem blankComments_comment {t inside rest : Text}
    (h : splitAtCommentEnd? t = some (inside, rest)) :
    blankComments ('/' :: '*' :: t) = inside.filter (· == '\n') ++ blankComments rest := by
  rw [blankComments]
  split
  next h' => rw [h] at h'; cases h'; rfl
  next h' => rw [h] at h'; cases h'

theorem blankComments_open {t : Text} (h : splitAtCommentEnd? t = none) :
    blankComments ('/' :: '*' :: t) = '/' :: '*' :: t := by
  rw [blankComments]
  split
  next h' => rw [h] at h'; cases h'
  next => rfl

theorem blankComments_cons {c : Char} {t : Text} (h : ∀ u, c = '/' → t = '*' :: u → False) :
    blankComments (c :: t) = c :: blankComments t := by
  rw [blankComments]
  exact h

/-- Where no comment ends, none is taken out. -/
theorem blankComments_of_not_infix {t : Text} (h : ¬ ['*', '/'] <:+: t) : blankComments t = t := by
  fun_induction blankComments t with
  | case1 t inside rest hsplit =>
    obtain ⟨rfl, -⟩ := splitAtCommentEnd?_eq_some_iff.mp hsplit
    exact absurd ⟨'/' :: '*' :: inside, rest, by simp⟩ h
  | case2 => rfl
  | case3 c t hopen ih => rw [ih fun hinfix => h (List.infix_cons_iff.mpr (.inr hinfix))]
  | case4 => rfl

/-! ## The comments of a text -/

/-- Every text has its comments. -/
theorem exists_matches_comments (t : Text) : ∃ m, Matches CommentAt t m := by
  refine Text.exists_matches ?_ t
  rintro t rest ⟨inside, rfl, -⟩
  exact ⟨'/' :: '*' :: (inside ++ ['*', '/']), List.cons_ne_nil _ _, by simp⟩

/-- Without a slash there are no comments. -/
theorem matches_comments_of_notMem {t : Text} (h : '/' ∉ t) :
    Matches CommentAt t (t.map (·, false)) := by
  induction t with
  | nil => exact .nil
  | cons c t ih =>
    refine .miss ?_ (ih fun hmem => h (List.mem_cons_of_mem c hmem))
    rintro rest ⟨inside, hsplit, -⟩
    cases hsplit
    exact h List.mem_cons_self

/-- **Blanking the comments takes out what the matches cover, but for the line feeds.** -/
theorem blankComments_eq_blanked {t : Text} {m : Coverage} (h : Matches CommentAt t m) :
    blankComments t = m.blanked := by
  induction h with
  | nil => rw [blankComments]; rfl
  | @hit u rest m hat hm ih =>
    obtain ⟨inside, hsplit, hfirst⟩ := hat
    have hu : u = '/' :: '*' :: (inside ++ ['*', '/']) :=
      List.append_cancel_right (hsplit.trans (by simp))
    rw [hsplit, blankComments_comment (splitAtCommentEnd?_eq_some_iff.mpr ⟨rfl, hfirst⟩), ih,
      Coverage.blanked_append, Coverage.blanked_covered, hu]
    simp
  | @miss c t m hnone hm ih =>
    rw [Coverage.blanked_cons_false, ← ih]
    by_cases hopen : ∃ u, c = '/' ∧ t = '*' :: u
    · -- the comment that begins here is never closed
      obtain ⟨u, rfl, rfl⟩ := hopen
      have hsplit : splitAtCommentEnd? u = none := by
        rw [← Option.not_isSome_iff_eq_none, Option.isSome_iff_exists]
        rintro ⟨⟨inside, rest⟩, hsplit⟩
        obtain ⟨rfl, hfirst⟩ := splitAtCommentEnd?_eq_some_iff.mp hsplit
        exact hnone rest ⟨inside, rfl, hfirst⟩
      rw [blankComments_open hsplit, blankComments_cons (fun _ h => absurd h (by decide)),
        blankComments_of_not_infix (splitAtCommentEnd?_eq_none_iff.mp hsplit)]
    · exact blankComments_cons fun u hc ht => hopen ⟨u, hc, ht⟩

/-- **The lines of what is left are the lines of the text**, without what the comments cover. -/
theorem splitLines_blankComments {t : Text} {m : Coverage} (h : Matches CommentAt t m) :
    Text.splitLines (blankComments t) = m.lines.map Coverage.bare := by
  rw [blankComments_eq_blanked h, Coverage.map_bare_lines]

end StyleAudit.Css
