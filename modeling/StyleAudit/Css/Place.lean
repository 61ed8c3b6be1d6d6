import StyleAudit.Text.Basic

/-!
# Places in a text

A `Place` is a line and a column, both counted from 1.  It is what one has after
reading a prefix of the text, and it is computed by reading that prefix one
character at a time (`Place.past`), so that reading two stretches one after the
other is reading them as one (`Place.past_append`).

Four things end a line: a line feed, a form feed, a carriage return, and a
carriage return with a line feed behind it, which together end one line only.  To
count the last one character by character the place remembers that it stands
right behind a carriage return.

Columns count UTF-16 units: a character above `U+FFFF` takes two.
-/

namespace StyleAudit.Css

/-- How many UTF-16 units the character takes. -/
def units16 (c : Char) : Nat := if 0xFFFF < c.toNat then 2 else 1

/-- A place in a text: where the next character stands. -/
structure Place where
  /-- The line, counted from 1. -/
  line : Nat := 1
  /-- The column in UTF-16 units, counted from 1. -/
  column : Nat := 1
  /-- Whether the last character read was a carriage return. -/
  afterReturn : Bool := false
  deriving DecidableEq, Repr, Inhabited

namespace Place

/-- The place before the first character. -/
def start : Place := {}

/-- The place after one more character. -/
def next (p : Place) (c : Char) : Place :=
  if c = '\n' ∧ p.afterReturn then { p with afterReturn := false }
  else if c = '\n' ∨ c = '\x0c' then ⟨p.line + 1, 1, false⟩
  else if c = '\r' then ⟨p.line + 1, 1, true⟩
  else ⟨p.line, p.column + units16 c, false⟩

/-- The place after a stretch of text. -/
def past (p : Place) (t : Text) : Place := t.foldl next p

@[simp] theorem past_nil (p : Place) : p.past [] = p := rfl

@[simp] theorem past_cons (p : Place) (c : Char) (t : Text) :
    p.past (c :: t) = (p.next c).past t := rfl

/-- Two stretches read one after the other are one stretch. -/
theorem past_append (p : Place) (t u : Text) : p.past (t ++ u) = (p.past t).past u :=
  List.foldl_append

/-- Reading never goes back to an earlier line. -/
theorem line_le_next (p : Place) (c : Char) : p.line ≤ (p.next c).line := by
  unfold next
  split
  · exact Nat.le_refl _
  · split
    · exact Nat.le_succ _
    · split
      · exact Nat.le_succ _
      · exact Nat.le_refl _

theorem line_le_past (p : Place) (t : Text) : p.line ≤ (p.past t).line := by
  induction t generalizing p with
  | nil => exact Nat.le_refl _
  | cons c t ih => exact Nat.le_trans (line_le_next p c) (ih _)

end Place
end StyleAudit.Css
