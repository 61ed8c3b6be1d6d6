import StyleAudit.Proofs.Text.Rows
import StyleAudit.Proofs.Text.Trim

/-!
# Lines and the texts they stand in

Two texts one behind the other have the lines that each has by itself, except that the last line of
the first and the first line of the second are one (`exists_splitOn_append`).  So a line of a part
is a line of the whole, and its number grows by the separators in front of the part
(`exists_getElem?_splitOn_append`).

Source lines differ from the stretches between line feeds in two ways: they lack the carriage return
that a line ends in, and there is no line behind the last line feed
(`exists_getElem?_sourceLines`).  A stretch in which no line ends stands in one of them
(`exists_sourceLine_of_append`).  `locate?` finds the first that holds a text
(`map_locate?_eq_some_iff`); whether that is the line one has in mind depends on the lines before
it.
-/

namespace StyleAudit.Text

/-! ## Lines of a part -/

section SplitOn

variable {sep : Char}

/-- **The stretches of two texts one behind the other.** -/
theorem exists_splitOn_append (sep : Char) (u v : Text) :
    ∃ front last first rest, splitOn sep u = front ++ [last] ∧ splitOn sep v = first :: rest ∧
      splitOn sep (u ++ v) = front ++ (last ++ first) :: rest ∧ front.length = u.count sep := by
  obtain ⟨first, rest, hv⟩ := List.exists_cons_of_ne_nil (splitOn_ne_nil sep v)
  induction u with
  | nil => exact ⟨[], [], first, rest, rfl, hv, hv, rfl⟩
  | cons c u ih =>
    obtain ⟨front, last, first', rest', hu, hv', happend, hlength⟩ := ih
    cases hv.symm.trans hv'
    by_cases hc : c = sep
    · subst hc
      refine ⟨[] :: front, last, first, rest, ?_, hv, ?_, ?_⟩
      · rw [splitOn, if_pos rfl, hu, List.cons_append]
      · rw [List.cons_append, splitOn, if_pos rfl, happend, List.cons_append]
      · rw [List.length_cons, hlength, List.count_cons_self]
    · have hcount : (c :: u).count sep = u.count sep := List.count_cons_of_ne hc
      cases front with
      | nil =>
        refine ⟨[], c :: last, first, rest, ?_, hv, ?_, by rw [hcount, ← hlength]⟩
        · rw [splitOn, if_neg hc, hu]
          rfl
        · rw [List.cons_append, splitOn, if_neg hc, happend]
          rfl
      | cons p front =>
        refine ⟨(c :: p) :: front, last, first, rest, ?_, hv, ?_, by rw [hcount, ← hlength]; rfl⟩
        · rw [splitOn, if_neg hc, hu]
          rfl
        · rw [List.cons_append, splitOn, if_neg hc, happend]
          rfl

/-- There is one stretch more than there are separators. -/
theorem length_splitOn (sep : Char) (t : Text) : (splitOn sep t).length = t.count sep + 1 := by
  obtain ⟨front, last, -, -, ht, -, -, hlength⟩ := exists_splitOn_append sep t []
  rw [ht, List.length_append, hlength]
  rfl

/-- The characters of a stretch are characters of the text. -/
theorem subset_of_mem_splitOn {t p : Text} (h : p ∈ splitOn sep t) : p ⊆ t := by
  intro c hc
  induction t generalizing p with
  | nil =>
    rw [splitOn, List.mem_singleton] at h
    rwa [h] at hc
  | cons x t ih =>
    obtain ⟨q, qs, hq⟩ := List.exists_cons_of_ne_nil (splitOn_ne_nil sep t)
    by_cases hx : x = sep
    · rw [splitOn, if_pos hx, List.mem_cons] at h
      rcases h with rfl | h
      · cases hc
      · exact List.mem_cons_of_mem x (ih h hc)
    · rw [splitOn, if_neg hx, hq] at h
      rcases List.mem_cons.mp h with rfl | h
      · rcases List.mem_cons.mp hc with rfl | hc
        · exact List.mem_cons_self
        · exact List.mem_cons_of_mem x (ih (by rw [hq]; exact List.mem_cons_self) hc)
      · exact List.mem_cons_of_mem x (ih (by rw [hq]; exact List.mem_cons_of_mem q h) hc)

/-- The lines of the first text, but for its last one, are lines of both together. -/
theorem getElem?_splitOn_append_of_lt {u : Text} {k : Nat} (h : k < u.count sep) (v : Text) :
    (splitOn sep (u ++ v))[k]? = (splitOn sep u)[k]? := by
  obtain ⟨front, last, first, rest, hu, -, happend, hlength⟩ := exists_splitOn_append sep u v
  rw [happend, hu, List.getElem?_append_left (by omega), List.getElem?_append_left (by omega)]

/-- **A line of the second text is a line of both together**; in front of its first line stands the
last line of the first text. -/
theorem exists_getElem?_splitOn_append {v l : Text} {k : Nat} (h : (splitOn sep v)[k]? = some l)
    (u : Text) : ∃ lead, (splitOn sep (u ++ v))[u.count sep + k]? = some (lead ++ l) ∧
      lead ⊆ u ∧ (k ≠ 0 → lead = []) := by
  obtain ⟨front, last, first, rest, hu, hv, happend, hlength⟩ := exists_splitOn_append sep u v
  rw [hv] at h
  rw [happend, List.getElem?_append_right (by omega), hlength, Nat.add_sub_cancel_left]
  cases k with
  | zero =>
    obtain rfl : first = l := Option.some.inj h
    have hlast : last ∈ splitOn sep u := by
      rw [hu]
      exact List.mem_append_right _ List.mem_cons_self
    exact ⟨last, rfl, subset_of_mem_splitOn hlast, fun hne => absurd rfl hne⟩
  | succ k => exact ⟨[], h, List.nil_subset u, fun _ => rfl⟩

/-- **A line of a part is a line of the whole**, if it is not the last one of the part. -/
theorem exists_getElem?_splitOn_infix {v l : Text} {k : Nat} (h : (splitOn sep v)[k]? = some l)
    (hk : k + 1 < (splitOn sep v).length) (u w : Text) :
    ∃ lead, (splitOn sep (u ++ v ++ w))[u.count sep + k]? = some (lead ++ l) ∧ lead ⊆ u ∧
      (k ≠ 0 → lead = []) := by
  rw [length_splitOn] at hk
  rw [getElem?_splitOn_append_of_lt (by rw [List.count_append]; omega)]
  exact exists_getElem?_splitOn_append h u

/-- A line that begins with a text without separators. -/
theorem exists_getElem?_splitOn_of_notMem {f : Text} (hf : sep ∉ f) (t : Text) :
    ∃ rest, (splitOn sep (f ++ t))[0]? = some (f ++ rest) := by
  obtain ⟨first, rest, ht⟩ := List.exists_cons_of_ne_nil (splitOn_ne_nil sep t)
  exact ⟨first, by rw [splitOn_append_of_notMem hf ht]; rfl⟩

end SplitOn

/-! ## Source lines -/

theorem dropReturn_cases (l : Text) : dropReturn l = l ∨ l = dropReturn l ++ ['\r'] := by
  rw [dropReturn]
  split
  next h =>
    rw [endsIn, beq_iff_eq] at h
    obtain ⟨front, rfl⟩ := List.getLast?_eq_some_iff.mp h
    exact .inr (by rw [List.dropLast_concat])
  next => exact .inl rfl

theorem exists_getElem?_endedLines {ls : List Text} {l : Text} {i : Nat} (h : ls[i]? = some l)
    (hne : l ≠ []) : ∃ l', (endedLines ls)[i]? = some l' ∧ (l' = l ∨ l = l' ++ ['\r']) := by
  fun_induction endedLines ls generalizing i with
  | case1 => cases h
  | case2 m hempty =>
    cases i with
    | zero =>
      obtain rfl : m = l := Option.some.inj h
      exact absurd (List.isEmpty_iff.mp hempty) hne
    | succ i => cases h
  | case3 m hempty => exact ⟨l, h, .inl rfl⟩
  | case4 m ls hlast ih =>
    cases i with
    | zero =>
      obtain rfl : m = l := Option.some.inj h
      exact ⟨dropReturn m, rfl, dropReturn_cases m⟩
    | succ i => exact ih h

/-- **A stretch between line feeds is a source line**, its carriage return aside, unless it is
empty. -/
theorem exists_getElem?_sourceLines {t l : Text} {i : Nat} (h : (splitLines t)[i]? = some l)
    (hne : l ≠ []) : ∃ l', t.sourceLines[i]? = some l' ∧ (l' = l ∨ l = l' ++ ['\r']) :=
  exists_getElem?_endedLines h hne

theorem exists_of_getElem?_endedLines {ls : List Text} {l' : Text} {i : Nat}
    (h : (endedLines ls)[i]? = some l') : ∃ l, ls[i]? = some l ∧ (l' = l ∨ l = l' ++ ['\r']) := by
  fun_induction endedLines ls generalizing i with
  | case1 => cases h
  | case2 m hempty => cases h
  | case3 m hempty => exact ⟨l', h, .inl rfl⟩
  | case4 m ls hlast ih =>
    cases i with
    | zero =>
      obtain rfl : dropReturn m = l' := Option.some.inj h
      exact ⟨m, rfl, dropReturn_cases m⟩
    | succ i => exact ih h

/-- **A source line is a stretch between line feeds**, trimmed. -/
theorem trim_sourceLine {t l l' : Text} {i : Nat} (hl' : t.sourceLines[i]? = some l')
    (hl : (splitLines t)[i]? = some l) : trim l' = trim l := by
  obtain ⟨l₀, hl₀, hreturn⟩ := exists_of_getElem?_endedLines hl'
  cases hl.symm.trans hl₀
  rcases hreturn with rfl | rfl
  · rfl
  · exact (trim_concat_of_isBlank (by decide) l').symm

/-- Without the carriage return at its end a line holds what it held, if that ends in none. -/
theorem infix_of_return {f l l' : Text} (hl : l' = l ∨ l = l' ++ ['\r'])
    (hf : f.getLast? ≠ some '\r') (h : f <:+: l) : f <:+: l' := by
  rcases hl with rfl | rfl
  · exact h
  · rcases List.infix_concat_iff.mp h with h | h
    · rcases List.suffix_concat_iff.mp h with rfl | ⟨g, rfl, -⟩
      · exact List.nil_infix
      · exact absurd List.getLast?_concat hf
    · exact h

/-- **A stretch of a text in which no line ends stands in one line**, which has as many lines before
it as there are line feeds in front of the stretch. -/
theorem exists_sourceLine_of_append {f : Text} (hne : f ≠ []) (hfeed : '\n' ∉ f)
    (hreturn : f.getLast? ≠ some '\r') (front rest : Text) :
    ∃ l, (front ++ (f ++ rest)).sourceLines[front.count '\n']? = some l ∧ f <:+: l := by
  obtain ⟨behind, hbehind⟩ := exists_getElem?_splitOn_of_notMem hfeed rest
  obtain ⟨lead, hline, -⟩ := exists_getElem?_splitOn_append hbehind front
  obtain ⟨l, hl, hends⟩ := exists_getElem?_sourceLines hline (by simp [hne])
  exact ⟨l, hl, infix_of_return hends hreturn ⟨lead, behind, by rw [List.append_assoc]⟩⟩

/-! ## The first number with a property

A search through a list tells the number of what it finds, counted from where it starts.  Both
lemmas are about one step of such a search. -/

section First

variable {α : Type} {P : Nat → α → Prop} {start n : Nat} {a b : α}

/-- Where the property holds at zero, of one thing only, it holds there first. -/
theorem exists_first_iff_of_zero (h : P 0 a) (hone : ∀ b, P 0 b → b = a) :
    (∃ i, n = start + i ∧ P i b ∧ ∀ j < i, ∀ b', ¬ P j b') ↔ n = start ∧ b = a := by
  constructor
  · rintro ⟨i, rfl, hb, hfirst⟩
    cases i with
    | zero => exact ⟨rfl, hone b hb⟩
    | succ i => exact absurd h (hfirst 0 (Nat.succ_pos i) a)
  · rintro ⟨rfl, rfl⟩
    exact ⟨0, rfl, h, fun j hj => absurd hj (Nat.not_lt_zero j)⟩

/-- Where the property does not hold at zero, it first holds where it does behind that. -/
theorem exists_first_iff_of_not_zero (h : ∀ b, ¬ P 0 b) :
    (∃ i, n = start + i ∧ P i b ∧ ∀ j < i, ∀ b', ¬ P j b') ↔
      ∃ i, n = start + 1 + i ∧ P (i + 1) b ∧ ∀ j < i, ∀ b', ¬ P (j + 1) b' := by
  constructor
  · rintro ⟨i, rfl, hb, hfirst⟩
    cases i with
    | zero => exact absurd hb (h b)
    | succ i => exact ⟨i, by omega, hb, fun j hj => hfirst (j + 1) (Nat.succ_lt_succ hj)⟩
  · rintro ⟨i, rfl, hb, hfirst⟩
    refine ⟨i + 1, by omega, hb, fun j hj => ?_⟩
    cases j with
    | zero => exact h
    | succ j => exact hfirst j (Nat.lt_of_succ_lt_succ hj)

end First

/-! ## The first line that holds a text -/

/-- Of the source lines, counted from zero, number `i` is the first that holds the text
`needle`. -/
def HoldsFirst (needle t : Text) (i : Nat) : Prop :=
  (∃ l, t.sourceLines[i]? = some l ∧ needle <:+: l) ∧
    ∀ j < i, ∀ l, t.sourceLines[j]? = some l → ¬ needle <:+: l

theorem findSome?_zipIdx_eq_some_iff {needle l : Text} {lines : List Text} {start n : Nat} :
    ((lines.zipIdx start).findSome? fun (l, n) =>
        if needle.occursIn l then some (n, l) else none) = some (n, l) ↔
      ∃ i, n = start + i ∧ (lines[i]? = some l ∧ needle <:+: l) ∧
        ∀ j < i, ∀ l', ¬ (lines[j]? = some l' ∧ needle <:+: l') := by
  induction lines generalizing start with
  | nil =>
    refine iff_of_false (fun h => by cases h) ?_
    rintro ⟨i, -, ⟨h, -⟩, -⟩
    cases h
  | cons m lines ih =>
    let Holds (i : Nat) (l' : Text) : Prop := (m :: lines)[i]? = some l' ∧ needle <:+: l'
    rw [List.zipIdx_cons, List.findSome?_cons]
    by_cases hm : needle <:+: m
    · have hone : ∀ l', Holds 0 l' → l' = m := by
        rintro l' ⟨h, -⟩
        cases h
        rfl
      refine Iff.trans ?_ (exists_first_iff_of_zero (P := Holds) ⟨rfl, hm⟩ hone).symm
      simp only [occursIn_iff.mpr hm, if_true, Option.some.injEq, Prod.mk.injEq, eq_comm]
    · have hfirst : ∀ l', ¬ Holds 0 l' := by
        rintro l' ⟨h, hl'⟩
        cases h
        exact hm hl'
      have hnone : needle.occursIn m = false := by
        rw [Bool.eq_false_iff, Ne, occursIn_iff]
        exact hm
      refine Iff.trans ?_ (exists_first_iff_of_not_zero hfirst).symm
      simp only [hnone, Bool.false_eq_true, if_false]
      exact ih

/-- **The line that is located** is the first that holds the text. -/
theorem locate?_eq_some_iff {needle t l : Text} {n : Nat} :
    locate? needle t = some (n, l) ↔
      ∃ i, n = i + 1 ∧ t.sourceLines[i]? = some l ∧ HoldsFirst needle t i := by
  refine findSome?_zipIdx_eq_some_iff.trans ⟨?_, ?_⟩
  · rintro ⟨i, rfl, ⟨hl, hneedle⟩, hfirst⟩
    exact ⟨i, Nat.add_comm 1 i, hl, ⟨l, hl, hneedle⟩,
      fun j hj l' hl' h => hfirst j hj l' ⟨hl', h⟩⟩
  · rintro ⟨i, rfl, hl, ⟨l', hl', hneedle⟩, hfirst⟩
    cases hl.symm.trans hl'
    exact ⟨i, Nat.add_comm i 1, ⟨hl, hneedle⟩, fun j hj l' h => hfirst j hj l' h.1 h.2⟩

/-- The number of the line that is located. -/
theorem map_locate?_eq_some_iff {needle t : Text} {i : Nat} :
    (locate? needle t).map Prod.fst = some (i + 1) ↔ HoldsFirst needle t i := by
  rw [Option.map_eq_some_iff]
  constructor
  · rintro ⟨⟨n, l⟩, h, hn⟩
    obtain ⟨j, hj, -, hfirst⟩ := locate?_eq_some_iff.mp h
    obtain rfl : j = i := by
      simp only at hn
      omega
    exact hfirst
  · intro h
    obtain ⟨l, hl, -⟩ := h.1
    exact ⟨(i + 1, l), locate?_eq_some_iff.mpr ⟨i, rfl, hl, h⟩, rfl⟩

/-- A line that holds the text is the one that is located, or stands behind it. -/
theorem exists_locate?_of_infix {needle t l : Text} {i : Nat} (hl : t.sourceLines[i]? = some l)
    (h : needle <:+: l) : ∃ j ≤ i, HoldsFirst needle t j := by
  induction i using Nat.strongRecOn generalizing l with
  | ind i ih =>
    by_cases hearlier : ∃ j < i, ∃ l', t.sourceLines[j]? = some l' ∧ needle <:+: l'
    · obtain ⟨j, hj, l', hl', h'⟩ := hearlier
      obtain ⟨k, hk, hfirst⟩ := ih j hj hl' h'
      exact ⟨k, Nat.le_trans hk (Nat.le_of_lt hj), hfirst⟩
    · exact ⟨i, Nat.le_refl i, ⟨l, hl, h⟩, fun j hj l' hl' h' => hearlier ⟨j, hj, l', hl', h'⟩⟩

end StyleAudit.Text
