import Mathlib.Data.List.Forall2
import StyleAudit.Proofs.Text.Trim
import StyleAudit.Text.Lines

/-!
# Carriage returns before line feeds

`withReturns` writes a carriage return before every line feed of a text, as a text editor does
that saves a file with the other kind of line ends.

A reader that takes the first `n` characters of a text should take `stretch t n` characters once
the returns are there: what is taken and what is left are then the same texts as before, with
returns (`take_stretch`, `drop_stretch`).
-/

namespace StyleAudit.Text

/-- The text with a carriage return before every line feed. -/
def withReturns (t : Text) : Text := t.flatMap fun c => if c = '\n' then ['\r', '\n'] else [c]

/-- How many characters the first `n` characters are with returns. -/
def stretch (t : Text) (n : Nat) : Nat := (withReturns (t.take n)).length

section WithReturns

variable {c : Char} {t : Text}

@[simp] theorem withReturns_nil : withReturns [] = [] := rfl

@[simp] theorem withReturns_newline (t : Text) :
    withReturns ('\n' :: t) = '\r' :: '\n' :: withReturns t := rfl

theorem withReturns_cons (h : c ≠ '\n') (t : Text) :
    withReturns (c :: t) = c :: withReturns t := by
  rw [withReturns, List.flatMap_cons, if_neg h]
  rfl

@[simp] theorem withReturns_append (t u : Text) :
    withReturns (t ++ u) = withReturns t ++ withReturns u := List.flatMap_append

theorem withReturns_of_notMem (h : '\n' ∉ t) : withReturns t = t := by
  induction t with
  | nil => rfl
  | cons c t ih =>
    rw [List.mem_cons, not_or] at h
    rw [withReturns_cons (Ne.symm h.1), ih h.2]

theorem withReturns_eq_nil_iff : withReturns t = [] ↔ t = [] := by
  cases t with
  | nil => simp
  | cons c t =>
    by_cases h : c = '\n'
    · subst h; simp
    · simp [withReturns_cons h]

/-- A character that ends no line is counted as often as before. -/
theorem count_withReturns (hr : c ≠ '\r') (t : Text) : (withReturns t).count c = t.count c := by
  induction t with
  | nil => rfl
  | cons x t ih =>
    by_cases h : x = '\n'
    · subst h
      rw [withReturns_newline, List.count_cons_of_ne hr.symm, List.count_cons, List.count_cons, ih]
    · rw [withReturns_cons h, List.count_cons, List.count_cons, ih]

/-- The first character is the same, unless it is the line end itself. -/
theorem head?_withReturns (hr : c ≠ '\r') (hn : c ≠ '\n') :
    (withReturns t).head? = some c ↔ t.head? = some c := by
  cases t with
  | nil => rfl
  | cons x t =>
    by_cases h : x = '\n'
    · subst h
      simp [hr.symm, hn.symm]
    · rw [withReturns_cons h]
      simp

theorem exists_cons_of_head?_withReturns (hr : c ≠ '\r') (hn : c ≠ '\n')
    (h : (withReturns t).head? = some c) : ∃ u, t = c :: u :=
  List.head?_eq_some_iff.mp ((head?_withReturns hr hn).mp h)

section While

variable {p : Char → Bool} (hp : p '\r' = p '\n')

include hp

theorem takeWhile_withReturns (t : Text) :
    (withReturns t).takeWhile p = withReturns (t.takeWhile p) := by
  induction t with
  | nil => rfl
  | cons c t ih =>
    by_cases h : c = '\n'
    · subst h
      cases hn : p '\n' <;> simp [hp, hn, ih]
    · rw [withReturns_cons h, List.takeWhile_cons, List.takeWhile_cons]
      cases hc : p c
      · rfl
      · simp [withReturns_cons h, ih]

theorem dropWhile_withReturns (t : Text) :
    (withReturns t).dropWhile p = withReturns (t.dropWhile p) := by
  induction t with
  | nil => rfl
  | cons c t ih =>
    by_cases h : c = '\n'
    · subst h
      cases hn : p '\n' <;> simp [hp, hn, ih]
    · rw [withReturns_cons h, List.dropWhile_cons, List.dropWhile_cons]
      cases hc : p c
      · simp [withReturns_cons h]
      · simp [ih]

theorem length_takeWhile_withReturns (t : Text) :
    ((withReturns t).takeWhile p).length = stretch t (t.takeWhile p).length := by
  rw [takeWhile_withReturns hp, stretch,
    ← List.prefix_iff_eq_take.mp (List.takeWhile_prefix (l := t) p)]

end While
end WithReturns

/-! ## Stretches -/

section Stretch

variable {c : Char} {t : Text} {n : Nat}

/-- What is taken and what is left, put together. -/
theorem withReturns_take_append_drop (t : Text) (n : Nat) :
    withReturns (t.take n) ++ withReturns (t.drop n) = withReturns t := by
  rw [← withReturns_append, List.take_append_drop]

theorem take_stretch (t : Text) (n : Nat) :
    (withReturns t).take (stretch t n) = withReturns (t.take n) := by
  rw [← withReturns_take_append_drop t n, stretch, List.take_left]

theorem drop_stretch (t : Text) (n : Nat) :
    (withReturns t).drop (stretch t n) = withReturns (t.drop n) := by
  rw [← withReturns_take_append_drop t n, stretch, List.drop_left]

/-- Two stretches one after the other. -/
theorem stretch_add (t : Text) (m n : Nat) :
    stretch t (m + n) = stretch t m + stretch (t.drop m) n := by
  rw [stretch, List.take_add, withReturns_append, List.length_append]
  rfl

theorem stretch_cons (h : c ≠ '\n') (t : Text) (n : Nat) :
    stretch (c :: t) (1 + n) = 1 + stretch t n := by
  rw [stretch_add]
  congr 1
  rw [stretch, List.take_succ_cons, withReturns_cons h]
  rfl

/-- A line feed takes two characters. -/
theorem stretch_newline (t : Text) (n : Nat) :
    stretch ('\n' :: t) (1 + n) = 2 + stretch t n := by
  rw [stretch_add]
  rfl

theorem stretch_cons_one (h : c ≠ '\n') (t : Text) : stretch (c :: t) 1 = 1 :=
  stretch_cons h t 0

theorem stretch_of_notMem (h : '\n' ∉ t.take n) (hn : n ≤ t.length) : stretch t n = n := by
  rw [stretch, withReturns_of_notMem h, List.length_take_of_le hn]

end Stretch

/-! ## Some of the returns -/

/-- The second text is the first with a return before some of its line feeds. -/
inductive Returned : Text → Text → Prop
  | nil : Returned [] []
  | keep (c : Char) {t u : Text} (h : Returned t u) : Returned (c :: t) (c :: u)
  | add {t u : Text} (h : Returned t u) : Returned ('\n' :: t) ('\r' :: '\n' :: u)

section Returned

variable {t u : Text}

theorem returned_withReturns (t : Text) : Returned t (withReturns t) := by
  induction t with
  | nil => exact .nil
  | cons c t ih =>
    by_cases h : c = '\n'
    · subst h
      exact .add ih
    · rw [withReturns_cons h]
      exact .keep c ih

theorem Returned.append_left (h : Returned t u) (w : Text) : Returned (w ++ t) (w ++ u) := by
  induction w with
  | nil => exact h
  | cons c w ih => exact .keep c ih

theorem Returned.eq_nil_iff (h : Returned t u) : u = [] ↔ t = [] := by
  cases h <;> simp

variable {p : Char → Bool}

theorem Returned.dropWhile (h : Returned t u) (hp : p '\r' = p '\n') :
    Returned (t.dropWhile p) (u.dropWhile p) := by
  induction h with
  | nil => exact .nil
  | keep c h ih =>
    rw [List.dropWhile_cons, List.dropWhile_cons]
    split
    · exact ih
    · exact .keep c h
  | add h ih =>
    rw [List.dropWhile_cons, List.dropWhile_cons, List.dropWhile_cons, hp]
    split
    · exact ih
    · exact .add h

/-- Dropping at the end, from the front. -/
theorem dropEndWhile_cons (p : Char → Bool) (c : Char) (t : Text) :
    dropEndWhile p (c :: t) =
      if dropEndWhile p t = [] ∧ p c = true then [] else c :: dropEndWhile p t := by
  simp only [dropEndWhile, List.reverse_cons, List.dropWhile_append, List.reverse_eq_nil_iff]
  by_cases h : t.reverse.dropWhile p = []
  · by_cases hc : p c = true <;> simp [h, hc]
  · simp [h]

theorem Returned.dropEndWhile (h : Returned t u) (hp : p '\r' = p '\n') :
    Returned (Text.dropEndWhile p t) (Text.dropEndWhile p u) := by
  induction h with
  | nil => exact .nil
  | keep c h ih =>
    simp only [dropEndWhile_cons, ih.eq_nil_iff]
    split
    · exact .nil
    · exact .keep c ih
  | add h ih =>
    simp only [dropEndWhile_cons, ih.eq_nil_iff]
    split
    next hn => rw [if_pos ⟨rfl, hp ▸ hn.2⟩]; exact .nil
    next hn => rw [if_neg fun h => List.cons_ne_nil _ _ h.1]; exact .add ih

/-- Trimming takes a line feed and its return, or neither. -/
theorem Returned.trim (h : Returned t u) : Returned (Text.trim t) (Text.trim u) :=
  (h.dropWhile rfl).dropEndWhile rfl

/-- The second line is the first, with a return at its end or without. -/
def LineReturned (line line' : Text) : Prop := line' = line ∨ line' = line ++ ['\r']

/-- **Lines are cut at line feeds, so that a return is left at the end of a line.** -/
theorem Returned.splitLines (h : Returned t u) :
    List.Forall₂ LineReturned (Text.splitLines t) (Text.splitLines u) := by
  induction h with
  | nil => exact .cons (.inl rfl) .nil
  | @keep c t u h ih =>
    rw [Text.splitLines, Text.splitLines, splitOn, splitOn]
    split
    · exact .cons (.inl rfl) ih
    · rw [Text.splitLines, Text.splitLines] at ih
      obtain ⟨line, lines, ht⟩ := List.exists_cons_of_ne_nil (splitOn_ne_nil '\n' t)
      obtain ⟨line', lines', hu⟩ := List.exists_cons_of_ne_nil (splitOn_ne_nil '\n' u)
      rw [ht, hu] at ih ⊢
      cases ih with
      | cons hline hlines => exact .cons (hline.imp (congrArg (c :: ·)) (congrArg (c :: ·))) hlines
  | add h ih => exact .cons (.inr rfl) ih

/-- A return at the end of a line is trimmed away. -/
theorem LineReturned.trim_eq {line line' : Text} (h : LineReturned line line') :
    Text.trim line' = Text.trim line := by
  rcases h with rfl | rfl
  · rfl
  · exact trim_concat_of_isBlank rfl line

end Returned

end StyleAudit.Text
