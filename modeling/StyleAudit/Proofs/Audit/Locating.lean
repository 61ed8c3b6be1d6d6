import StyleAudit.Audit.Findings
import StyleAudit.Proofs.Text.SourceLines

/-!
# Findings that are shown by their text

Two kinds of findings come without a number of a line: a semicolon missing in a block, and a
selector that a page does not use.  The line they are shown at is searched for in the file by their
text (`Text.locate?`).

So for a line of the file that a finding is about, this file says when the finding shows it
(`Shows`): exactly if it is the first line of the file that holds the text
(`ShownByText.shows_iff`).  A line that holds the text is shown, or one before it is
(`ShownByText.notBehind`); a line that does not is never shown.
-/

namespace StyleAudit.Audit

open Text (HoldsFirst trim)

/-- The finding shows line `k` of the text, counted from zero, with its number and as its
context. -/
def Shows (t : Text) (k : Nat) (d : Diagnostic) : Prop :=
  d.line = some (k + 1) ∧
    ∃ l, t.sourceLines[k]? = some l ∧ d.context = some (String.ofList (trim l))

/-- The finding shows the first line of the text that holds the given one, if there is any. -/
structure ShownByText (t needle : Text) (d : Diagnostic) : Prop where
  line_eq : ∀ j, d.line = some (j + 1) ↔ HoldsFirst needle t j
  context_eq : ∀ j l, d.line = some (j + 1) → t.sourceLines[j]? = some l →
    d.context = some (String.ofList (trim l))

theorem shownByText {t needle : Text} {d : Diagnostic}
    (hline : d.line = (Text.locate? needle t).map Prod.fst)
    (hcontext : d.context = (Text.locate? needle t).map fun p => String.ofList (trim p.2)) :
    ShownByText t needle d where
  line_eq j := by rw [hline, Text.map_locate?_eq_some_iff]
  context_eq j l hj hl := by
    rw [hline, Option.map_eq_some_iff] at hj
    obtain ⟨⟨n, l'⟩, hfound, hn⟩ := hj
    obtain ⟨i, rfl, hl', -⟩ := Text.locate?_eq_some_iff.mp hfound
    obtain rfl : i = j := Nat.succ.inj hn
    cases hl.symm.trans hl'
    rw [hcontext, hfound]
    rfl

/-- The line that is found has the number that it is found with. -/
theorem lineText?_locate? (needle t : Text) :
    ((Text.locate? needle t).map Prod.fst).bind (lineText? t) =
      (Text.locate? needle t).map fun p => String.ofList (trim p.2) := by
  cases hfound : Text.locate? needle t with
  | none => rfl
  | some p =>
    obtain ⟨i, hi, hl, -⟩ := Text.locate?_eq_some_iff.mp hfound
    rw [Option.map_some, Option.bind_some, lineText?, hi, Nat.add_sub_cancel, hl]
    rfl

namespace ShownByText

variable {t needle : Text} {d : Diagnostic} {k : Nat}

/-- **A line is shown exactly if it is the first that holds the text.** -/
theorem shows_iff (h : ShownByText t needle d) : Shows t k d ↔ HoldsFirst needle t k := by
  refine ⟨fun hshows => (h.line_eq k).mp hshows.1, fun hfirst => ?_⟩
  have hline := (h.line_eq k).mpr hfirst
  obtain ⟨l, hl, -⟩ := hfirst.1
  exact ⟨hline, l, hl, h.context_eq k l hline hl⟩

/-- No line behind one that holds the text is shown. -/
theorem notBehind (h : ShownByText t needle d) {l : Text} (hl : t.sourceLines[k]? = some l)
    (hneedle : needle <:+: l) : ∃ j ≤ k, Shows t j d := by
  obtain ⟨j, hj, hfirst⟩ := Text.exists_locate?_of_infix hl hneedle
  exact ⟨j, hj, h.shows_iff.mpr hfirst⟩

end ShownByText

end StyleAudit.Audit
