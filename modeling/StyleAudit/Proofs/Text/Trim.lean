import Mathlib.Data.List.Induction
import Mathlib.Data.List.TakeWhile
import StyleAudit.Text.Blank

/-!
# Texts that are trimmed already

A text equals its trimmed form exactly if neither its first nor its last character is a blank
(`trim_eq_self`, `not_isBlank_of_trim_eq_self`), and blanks put in front of a text do not change
its trimmed form (`trim_append_of_isBlank`).  What is taken from the front of a text ends before a
text that begins with something else (`takeWhile_append_of_head?`), and what is taken up to a
character ends where that character stands first (`takeWhile_append_cons_of_notMem`).
-/

namespace StyleAudit.Text

variable {p : Char → Bool} {t : Text}

theorem takeWhile_append_of_head? {d : Text} (hd : ∀ c ∈ d.head?, p c = false) (u : Text) :
    (u ++ d).takeWhile p = u.takeWhile p := by
  induction u with
  | nil =>
    cases d with
    | nil => rfl
    | cons c d =>
      have hc := hd c rfl
      rw [List.nil_append, List.takeWhile_cons_of_neg (by rw [hc]; exact Bool.false_ne_true),
        List.takeWhile_nil]
  | cons c u ih => rw [List.cons_append, List.takeWhile_cons, List.takeWhile_cons, ih]

/-- What is taken up to a character ends where the character stands for the first time. -/
theorem takeWhile_append_cons_of_notMem {c : Char} {u : Text} (h : c ∉ u) (d : Text) :
    (u ++ c :: d).takeWhile (· != c) = u := by
  rw [takeWhile_append_of_head? fun x hx => by cases hx; exact bne_self_eq_false c]
  refine List.takeWhile_eq_self_iff.mpr fun x hx => bne_iff_ne.mpr ?_
  rintro rfl
  exact h hx

/-- If not all of a text is taken up to a character, the character stands in it. -/
theorem exists_of_length_takeWhile_lt {c : Char}
    (h : (t.takeWhile (· != c)).length < t.length) : ∃ u d, t = u ++ c :: d ∧ c ∉ u := by
  refine List.eq_append_cons_of_mem (by_contra fun hnot => ?_)
  have hall : t.takeWhile (· != c) = t := by
    refine List.takeWhile_eq_self_iff.mpr fun x hx => bne_iff_ne.mpr ?_
    rintro rfl
    exact hnot hx
  rw [hall] at h
  exact Nat.lt_irrefl _ h

theorem dropEndWhile_of_getLast? (h : ∀ x ∈ t.getLast?, p x = false) : t.dropEndWhile p = t := by
  rw [dropEndWhile]
  rcases List.eq_nil_or_concat t with rfl | ⟨u, x, rfl⟩
  · rfl
  · rw [List.concat_eq_append] at h ⊢
    have hx := h x List.getLast?_concat
    rw [List.reverse_append, List.reverse_singleton, List.singleton_append,
      List.dropWhile_cons_of_neg (by rw [hx]; exact Bool.false_ne_true), List.reverse_cons,
      List.reverse_reverse]

theorem dropEndWhile_sublist (p : Char → Bool) (t : Text) :
    List.Sublist (t.dropEndWhile p) t := by
  have h := (List.dropWhile_sublist p (l := t.reverse)).reverse
  rwa [List.reverse_reverse] at h

/-- Trimming only takes away. -/
theorem trim_sublist (t : Text) : List.Sublist (trim t) t :=
  (dropEndWhile_sublist isBlank _).trans (List.dropWhile_sublist isBlank)

/-- A text with no blank at either end is trimmed. -/
theorem trim_eq_self (hfirst : ∀ x ∈ t.head?, isBlank x = false)
    (hlast : ∀ x ∈ t.getLast?, isBlank x = false) : trim t = t := by
  have hfront : t.dropWhile isBlank = t := by
    cases t with
    | nil => rfl
    | cons c t =>
      have hc := hfirst c rfl
      exact List.dropWhile_cons_of_neg (by rw [hc]; exact Bool.false_ne_true)
  rw [trim, stripWhile, hfront]
  exact dropEndWhile_of_getLast? hlast

/-- **A trimmed text has no blank at either end.** -/
theorem not_isBlank_of_trim_eq_self (h : trim t = t) :
    (∀ x ∈ t.head?, isBlank x = false) ∧ ∀ x ∈ t.getLast?, isBlank x = false := by
  have hle := (dropEndWhile_sublist isBlank (t.dropWhile isBlank)).length_le
  rw [trim, stripWhile] at h
  rw [h] at hle
  have hfirst : ∀ x ∈ t.head?, isBlank x = false := by
    intro x hx
    rw [Bool.eq_false_iff]
    intro hblank
    obtain ⟨u, rfl⟩ := List.head?_eq_some_iff.mp hx
    have hshort := (List.dropWhile_sublist isBlank (l := u)).length_le
    rw [List.dropWhile_cons_of_pos hblank, List.length_cons] at hle
    omega
  refine ⟨hfirst, fun x hx => ?_⟩
  rw [Bool.eq_false_iff]
  intro hblank
  obtain ⟨u, rfl⟩ := List.getLast?_eq_some_iff.mp hx
  have hshort := (List.dropWhile_sublist isBlank (l := u.reverse)).length_le
  have hfront : (u ++ [x]).dropWhile isBlank = u ++ [x] := by
    cases u with
    | nil =>
      have hx' := hfirst x rfl
      rw [hx'] at hblank
      cases hblank
    | cons c u =>
      have hc := hfirst c rfl
      exact List.dropWhile_cons_of_neg (by rw [hc]; exact Bool.false_ne_true)
  rw [hfront, dropEndWhile, List.reverse_append, List.reverse_singleton, List.singleton_append,
    List.dropWhile_cons_of_pos hblank] at h
  have hlen := congrArg List.length h
  rw [List.length_reverse, List.length_append, List.length_singleton] at hlen
  rw [List.length_reverse] at hshort
  omega

/-- Blanks in front are trimmed away. -/
theorem trim_append_of_isBlank {w : Text} (hw : ∀ c ∈ w, isBlank c = true) (t : Text) :
    trim (w ++ t) = trim t := by
  rw [trim, stripWhile, List.dropWhile_append_of_pos hw]
  rfl

theorem dropEndWhile_concat_of_pos {c : Char} (hc : p c = true) (t : Text) :
    (t ++ [c]).dropEndWhile p = t.dropEndWhile p := by
  rw [dropEndWhile, List.reverse_append, List.reverse_singleton, List.singleton_append,
    List.dropWhile_cons_of_pos hc]
  rfl

/-- A blank at the end is trimmed away. -/
theorem trim_concat_of_isBlank {c : Char} (hc : isBlank c = true) (t : Text) :
    trim (t ++ [c]) = trim t := by
  rw [trim, stripWhile, List.dropWhile_append]
  split
  next h =>
    rw [List.isEmpty_iff] at h
    rw [List.dropWhile_cons_of_pos hc, List.dropWhile_nil, trim, stripWhile, h]
  · exact dropEndWhile_concat_of_pos hc _

/-- Blanks at the end are trimmed away. -/
theorem trim_append_blanks {w : Text} (hw : ∀ c ∈ w, isBlank c = true) (t : Text) :
    trim (t ++ w) = trim t := by
  induction w using List.reverseRecOn with
  | nil => rw [List.append_nil]
  | append_singleton w c ih =>
    rw [← List.append_assoc, trim_concat_of_isBlank (hw c (by simp)),
      ih fun x hx => hw x (List.mem_append_left _ hx)]

/-- A text that begins with no blank is trimmed at its end only. -/
theorem trim_eq_trimEnd (hfirst : ∀ x ∈ t.head?, isBlank x = false) : trim t = trimEnd t := by
  rcases t with _ | ⟨c, t⟩
  · rfl
  · rw [trim, stripWhile, trimEnd, List.dropWhile_cons_of_neg (Bool.eq_false_iff.mp (hfirst c rfl))]

/-- Trimming at the end goes no further than to something that is no blank. -/
theorem trimEnd_append {u : Text} (hu : trimEnd u ≠ []) (t : Text) :
    trimEnd (t ++ u) = t ++ trimEnd u := by
  have hne : ¬ (u.reverse.dropWhile isBlank).isEmpty = true := fun h =>
    hu (by rw [trimEnd, dropEndWhile, List.isEmpty_iff.mp h]; rfl)
  rw [trimEnd, dropEndWhile, List.reverse_append, List.dropWhile_append, if_neg hne,
    List.reverse_append, List.reverse_reverse]
  rfl

/-- What is dropped at the end is characters that may be dropped. -/
theorem exists_dropEndWhile_append (p : Char → Bool) (t : Text) :
    ∃ w, t.dropEndWhile p ++ w = t ∧ ∀ c ∈ w, p c = true := by
  refine ⟨(t.reverse.takeWhile p).reverse, ?_, fun c hc => ?_⟩
  · rw [dropEndWhile, ← List.reverse_append, List.takeWhile_append_dropWhile, List.reverse_reverse]
  · exact List.mem_takeWhile_imp (List.mem_reverse.mp hc)

/-- What is trimmed away at the end is blanks. -/
theorem exists_trimEnd_append (t : Text) : ∃ w, trimEnd t ++ w = t ∧ ∀ c ∈ w, isBlank c = true :=
  exists_dropEndWhile_append isBlank t

/-- **Trimming stops at a character that is not blank**, from either side. -/
theorem trim_append_cons {c : Char} (hc : isBlank c = false) (t u : Text) :
    trim (t ++ c :: u) = t.dropWhile isBlank ++ trimEnd (c :: u) := by
  have hdrop : (t ++ c :: u).dropWhile isBlank = t.dropWhile isBlank ++ c :: u := by
    rw [List.dropWhile_append]
    split
    next hempty =>
      rw [List.isEmpty_iff.mp hempty, List.nil_append]
      exact List.dropWhile_cons_of_neg (Bool.eq_false_iff.mp hc)
    next => rfl
  have hne : trimEnd (c :: u) ≠ [] := by
    intro hnil
    obtain ⟨w, hw, hblank⟩ := exists_trimEnd_append (c :: u)
    rw [hnil, List.nil_append] at hw
    rw [hblank c (hw ▸ List.mem_cons_self)] at hc
    cases hc
  calc trim (t ++ c :: u) = trimEnd (t.dropWhile isBlank ++ c :: u) := congrArg trimEnd hdrop
    _ = t.dropWhile isBlank ++ trimEnd (c :: u) := trimEnd_append hne _

/-- What is trimmed away is blanks. -/
theorem exists_append_trim_append (t : Text) : ∃ lead trail, t = lead ++ (trim t ++ trail) ∧
    (∀ c ∈ lead, isBlank c = true) ∧ ∀ c ∈ trail, isBlank c = true := by
  obtain ⟨trail, htrail, hblank⟩ := exists_trimEnd_append (t.dropWhile isBlank)
  refine ⟨t.takeWhile isBlank, trail, ?_, fun c hc => List.mem_takeWhile_imp hc, hblank⟩
  exact List.takeWhile_append_dropWhile.symm.trans (congrArg _ htrail.symm)

/-- Trimming takes away no character that is not blank. -/
theorem count_trim {c : Char} (hc : isBlank c = false) (t : Text) :
    (trim t).count c = t.count c := by
  have hnone : ∀ {u : Text}, (∀ x ∈ u, isBlank x = true) → u.count c = 0 := fun hu =>
    List.count_eq_zero.mpr fun hmem => Bool.false_ne_true (hc.symm.trans (hu c hmem))
  obtain ⟨lead, trail, ht, hlead, htrail⟩ := exists_append_trim_append t
  conv_rhs => rw [ht]
  rw [List.count_append, List.count_append, hnone hlead, hnone htrail, Nat.zero_add, Nat.add_zero]

/-- A text put at the end is trimmed away exactly if it is blank. -/
theorem trim_append_eq_iff {t u : Text} :
    trim (t ++ u) = trim t ↔ ∀ c ∈ u, isBlank c = true := by
  refine ⟨fun h c hc => ?_, fun hu => trim_append_blanks hu t⟩
  by_contra hblank
  have hcount : (t ++ u).count c = t.count c := by
    rw [← count_trim (eq_false_of_ne_true hblank) (t ++ u), h,
      count_trim (eq_false_of_ne_true hblank)]
  rw [List.count_append, Nat.add_eq_left, List.count_eq_zero] at hcount
  exact hcount hc

theorem trim_infix (t : Text) : trim t <:+: t := by
  obtain ⟨lead, trail, ht, -⟩ := exists_append_trim_append t
  exact ⟨lead, trail, by rw [List.append_assoc, ← ht]⟩

/-- Nothing is left of blanks, and of nothing else. -/
theorem trim_eq_nil_iff {t : Text} : trim t = [] ↔ ∀ c ∈ t, isBlank c = true := by
  refine ⟨fun h => ?_, fun h => ?_⟩
  · obtain ⟨lead, trail, ht, hlead, htrail⟩ := exists_append_trim_append t
    rw [h, List.nil_append] at ht
    rw [ht]
    exact List.forall_mem_append.mpr ⟨hlead, htrail⟩
  · rw [← List.append_nil t, trim_append_of_isBlank h]
    rfl

/-- Trimming twice is trimming once. -/
theorem trim_trim (t : Text) : trim (trim t) = trim t := by
  have hfirst : ∀ x ∈ (t.dropWhile isBlank).head?, isBlank x = false := by
    have h := List.head?_dropWhile_not isBlank t
    intro x hx
    rw [Option.mem_def] at hx
    rwa [hx] at h
  refine trim_eq_self (fun x hx => hfirst x ?_) fun x hx => ?_
  · obtain ⟨w, hw, -⟩ := exists_trimEnd_append (t.dropWhile isBlank)
    obtain ⟨u, hu⟩ := List.head?_eq_some_iff.mp hx
    have hfront : trimEnd (t.dropWhile isBlank) = x :: u := hu
    rw [← hw, hfront]
    rfl
  · have h := List.head?_dropWhile_not isBlank (t.dropWhile isBlank).reverse
    have hlast : ((t.dropWhile isBlank).reverse.dropWhile isBlank).head? = some x := by
      rw [← List.getLast?_reverse]
      exact hx
    rwa [hlast] at h

end StyleAudit.Text
