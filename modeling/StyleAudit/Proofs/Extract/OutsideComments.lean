import StyleAudit.Proofs.Css.CommentTokens
import StyleAudit.Proofs.Extract.OpenLines

/-!
# What the semicolon checks see of a text

The semicolon checks are to look at everything outside the comments of a text and at nothing inside
them.  What they take for comments are the matches of a pattern, though, and the tokenizer has
another opinion about some texts: the `/*` in `content: "/*"` begins no comment, and the one of a
comment that is never closed begins one.

The two agree on where comments stand exactly if the text is *plainly commented*, which is to say
that its comments are closed and that no other token holds the beginning of a match
(`matches_commentTokens_iff`).  Of such a text the checks see what they are meant to see
(`blankComments_plainlyCommented`); in the other texts they may miss declarations
(`exists_blankComments_hides`).
-/

namespace StyleAudit.Extract

open Css
open Text (Coverage Matches splitLines)

/-- **What the semicolon checks see.**  The blanked text is the text without the matches of the
pattern, but for the line feeds in them.  The matches are the comments of the tokenizer exactly if
the text is plainly commented.  Then the comments, and nothing else, are replaced by the line feeds
in them, and either check objects to the first line of the text that lacks its semicolon, each line
taken without the characters of comments in it. -/
theorem blankComments_plainlyCommented (t : Text) :
    (∃ m, Matches CommentAt t m ∧ blankComments t = m.blanked) ∧
    (Matches CommentAt t (commentTokens t) ↔ PlainlyCommented (lexemes t)) ∧
    (PlainlyCommented (lexemes t) →
      blankComments t = blankedTokens t ∧
      (commentTokens t).lines.map Coverage.text = splitLines t ∧
      splitLines (blankComments t) = (commentTokens t).lines.map Coverage.bare ∧
      ∀ line,
        (∀ n, checkSheetLines t = .error (.missingSemicolon line (some n)) ↔
          ∃ i, n = i + 1 ∧ OpenAt SheetGoesOn ((commentTokens t).lines.map Coverage.bare) i line ∧
            ∀ j < i, ∀ line',
              ¬ OpenAt SheetGoesOn ((commentTokens t).lines.map Coverage.bare) j line') ∧
        (checkBlockLines t = .error (.missingSemicolon line none) ↔
          ∃ i, OpenInBlock ((commentTokens t).lines.map Coverage.bare) i line ∧
            ∀ j < i, ∀ line',
              ¬ OpenInBlock ((commentTokens t).lines.map Coverage.bare) j line')) := by
  obtain ⟨m, hm⟩ := exists_matches_comments t
  refine ⟨⟨m, hm, blankComments_eq_blanked hm⟩, matches_commentTokens_iff t, fun hplain => ?_⟩
  have htokens := (matches_commentTokens_iff t).mpr hplain
  have hblanked : blankComments t = blankedTokens t := by
    rw [blankComments_eq_blanked htokens, blanked_commentTokens]
  have hlines : (commentTokens t).lines.map Coverage.text = splitLines t := by
    rw [Coverage.map_text_lines, text_commentTokens]
  exact ⟨hblanked, hlines, splitLines_blankComments htokens, fun line =>
    ⟨fun n => checkSheetLines_eq_error_iff htokens, checkBlockLines_eq_error_iff htokens⟩⟩

/-- A stylesheet with a star in a string and a comment over two lines. -/
def starredSheet : Text := "a \x7b b: \"*\" \x7d /* c: d\n*/ e \x7b f: g \x7d".toList

/-- The comment is taken out, and the string is left. -/
theorem blankComments_starredSheet : PlainlyCommented (lexemes starredSheet) ∧
    blankComments starredSheet = "a \x7b b: \"*\" \x7d \n e \x7b f: g \x7d".toList := by
  have hplain : PlainlyCommented (lexemes starredSheet) :=
    plainlyCommented_of_notMem (by decide +kernel) (by decide +kernel)
  obtain ⟨-, -, hsees⟩ := blankComments_plainlyCommented starredSheet
  exact ⟨hplain, (hsees hplain).1.trans (by decide +kernel)⟩

/-- A string and a comment, with what looks like a comment from one into the other. -/
def quotedOpening : Text := "a\x7bcontent:\"/*\"\x7d/**/".toList

/-- **What stands between a `/*` in a string and the end of a comment is taken for a comment.** -/
theorem exists_blankComments_hides :
    blankComments quotedOpening = "a\x7bcontent:\"".toList ∧
      blankedTokens quotedOpening = "a\x7bcontent:\"/*\"\x7d".toList ∧
        ¬ ∀ t, blankComments t = blankedTokens t := by
  have hblanked : blankComments quotedOpening = "a\x7bcontent:\"".toList := by decide +kernel
  have htokens : blankedTokens quotedOpening = "a\x7bcontent:\"/*\"\x7d".toList := by
    decide +kernel
  refine ⟨hblanked, htokens, fun hall => ?_⟩
  have heq := hall quotedOpening
  rw [hblanked, htokens] at heq
  exact absurd heq (by decide)

end StyleAudit.Extract
