import StyleAudit.Text.Lines

/-!
# What the matches of a pattern cover

Comments and pseudo-classes are taken out of a text in the same way: the text is gone through from
left to right, what matches a pattern is taken out, and the search goes on behind the match.  What
is left no longer tells where in the text it stood.

Here the text is kept and its characters are marked instead.  A pattern is a relation: `At t rest`
says that it matches at the front of `t` and that `rest` is what stands behind the match.
`Matches At t m` says that `m` is the text `t` with a mark at each character that a match covers.
What is left when the matches are taken out is then `m.bare`, and each character of it has its
place in `t`.

The lines of a marked text are the lines of the text, whether or not a match covers the line feeds
between them (`map_text_lines`).  Taking out what is covered, but for the line feeds, therefore
leaves every line its number (`map_bare_lines`).
-/

namespace StyleAudit.Text

/-- A text in which each character is marked: whether a match covers it. -/
abbrev Coverage := List (Char × Bool)

namespace Coverage

/-- The text that is marked. -/
def text (m : Coverage) : Text := m.map Prod.fst

/-- What no match covers. -/
def bare (m : Coverage) : Text := (m.filter fun p => !p.2).map Prod.fst

/-- What no match covers, and the line feeds. -/
def blanked (m : Coverage) : Text := (m.filter fun p => !p.2 || p.1 == '\n').map Prod.fst

/-- The stretches between the line feeds, those that a match covers included. -/
def lines (m : Coverage) : List Coverage := m.splitOnP fun p => p.1 == '\n'

variable {m m' : Coverage}

@[simp] theorem text_append : text (m ++ m') = text m ++ text m' := List.map_append

@[simp] theorem text_cons (p : Char × Bool) : text (p :: m) = p.1 :: text m := rfl

@[simp] theorem bare_append : bare (m ++ m') = bare m ++ bare m' := by
  rw [bare, List.filter_append, List.map_append]
  rfl

@[simp] theorem bare_cons_false (c : Char) : bare ((c, false) :: m) = c :: bare m := rfl

@[simp] theorem blanked_append : blanked (m ++ m') = blanked m ++ blanked m' := by
  rw [blanked, List.filter_append, List.map_append]
  rfl

@[simp] theorem blanked_cons_false (c : Char) : blanked ((c, false) :: m) = c :: blanked m := rfl

/-- A stretch that one match covers. -/
theorem text_covered (u : Text) : text (u.map (·, true)) = u := by
  rw [text, List.map_map]
  exact List.map_id u

theorem bare_covered (u : Text) : bare (u.map (·, true)) = [] := by
  rw [bare, List.filter_map, List.filter_eq_nil_iff.mpr fun _ _ h => Bool.noConfusion h]
  rfl

theorem blanked_covered (u : Text) : blanked (u.map (·, true)) = u.filter (· == '\n') := by
  rw [blanked, List.filter_map, List.map_map]
  exact List.map_id _

/-- A stretch that no match covers. -/
theorem blanked_uncovered (u : Text) : blanked (u.map (·, false)) = u := by
  induction u with
  | nil => rfl
  | cons c u ih => exact congrArg (c :: ·) ih

/-- Where nothing is covered, all is left. -/
theorem bare_eq_text (h : ∀ p ∈ m, p.2 = false) : bare m = text m := by
  rw [bare, List.filter_eq_self.mpr fun p hp => by rw [h p hp]; rfl]
  rfl

/-- **The lines of what is left of a text**, if line feeds are left in any case. -/
theorem splitLines_filter {left left' : Char × Bool → Bool}
    (hfeed : ∀ covered, left ('\n', covered) = true)
    (hother : ∀ p : Char × Bool, p.1 ≠ '\n' → left p = left' p) (m : Coverage) :
    splitLines ((m.filter left).map Prod.fst) =
      m.lines.map fun l => (l.filter left').map Prod.fst := by
  induction m with
  | nil => rfl
  | cons p m ih =>
    obtain ⟨c, covered⟩ := p
    obtain ⟨l, ls, hlines⟩ := List.exists_cons_of_ne_nil (List.splitOnP_ne_nil
      (fun p : Char × Bool => p.1 == '\n') m)
    rw [lines, hlines] at ih
    rw [lines, List.splitOnP_cons_eq_if_modifyHead, hlines]
    by_cases hc : c = '\n'
    · subst hc
      rw [List.filter_cons_of_pos (hfeed covered), List.map_cons, splitLines, splitOn, if_pos rfl,
        ← splitLines, ih, if_pos (beq_self_eq_true _)]
      rfl
    · rw [if_neg (by simpa using hc), List.modifyHead_cons, List.map_cons]
      cases hleft : left' (c, covered) with
      | true =>
        rw [List.filter_cons_of_pos ((hother _ hc).trans hleft), List.map_cons, splitLines,
          splitOn, if_neg hc, ← splitLines, ih, List.map_cons, List.filter_cons_of_pos hleft]
        rfl
      | false =>
        rw [List.filter_cons_of_neg (Bool.eq_false_iff.mp ((hother _ hc).trans hleft)), ih,
          List.map_cons, List.filter_cons_of_neg (Bool.eq_false_iff.mp hleft)]

/-- **The lines of a marked text are those of the text.** -/
theorem map_text_lines (m : Coverage) : m.lines.map text = splitLines m.text := by
  have hall : ∀ m : Coverage, m.filter (fun _ => true) = m :=
    fun _ => List.filter_eq_self.mpr fun _ _ => rfl
  have hlines := @splitLines_filter (fun _ => true) _ (fun _ => rfl) (fun _ _ => rfl) m
  simp only [hall] at hlines
  exact hlines.symm

/-- **Taking out what is covered leaves every line its number**, if the line feeds are left. -/
theorem map_bare_lines (m : Coverage) : m.lines.map bare = splitLines m.blanked := by
  refine (splitLines_filter (fun _ => Bool.or_true _) (fun p hp => ?_) m).symm
  rw [beq_eq_false_iff_ne.mpr hp, Bool.or_false]

end Coverage

/-! ## Matches from left to right -/

/-- The marks are those of the matches of the pattern, from left to right: where it matches, the
match is covered, and where it does not, the next character is left. -/
inductive Matches (At : Text → Text → Prop) : Text → Coverage → Prop
  | nil : Matches At [] []
  | hit {u rest : Text} {m : Coverage} (h : At (u ++ rest) rest) (hm : Matches At rest m) :
      Matches At (u ++ rest) (u.map (·, true) ++ m)
  | miss {c : Char} {t : Text} {m : Coverage} (h : ∀ rest, ¬ At (c :: t) rest)
      (hm : Matches At t m) : Matches At (c :: t) ((c, false) :: m)

theorem Matches.text_eq {At : Text → Text → Prop} {t : Text} {m : Coverage}
    (h : Matches At t m) : m.text = t := by
  induction h with
  | nil => rfl
  | hit _ _ ih => rw [Coverage.text_append, Coverage.text_covered, ih]
  | miss _ _ ih => rw [Coverage.text_cons, ih]

/-- Every text has its matches, if a match is never empty. -/
theorem exists_matches {At : Text → Text → Prop}
    (hAt : ∀ t rest, At t rest → ∃ u, u ≠ [] ∧ t = u ++ rest) (t : Text) :
    ∃ m, Matches At t m := by
  induction hlength : t.length using Nat.strongRecOn generalizing t with
  | ind n ih =>
    subst hlength
    cases t with
    | nil => exact ⟨[], .nil⟩
    | cons c t =>
      by_cases hmatch : ∃ rest, At (c :: t) rest
      · obtain ⟨rest, hrest⟩ := hmatch
        obtain ⟨u, hu, hsplit⟩ := hAt _ _ hrest
        have hshorter : rest.length < (c :: t).length := by
          have hpos := List.length_pos_iff.mpr hu
          rw [hsplit, List.length_append]
          omega
        obtain ⟨m, hm⟩ := ih _ hshorter rest rfl
        rw [hsplit] at hrest ⊢
        exact ⟨_, .hit hrest hm⟩
      · obtain ⟨m, hm⟩ := ih _ (Nat.lt_succ_self t.length) t rfl
        exact ⟨_, .miss (fun rest hrest => hmatch ⟨rest, hrest⟩) hm⟩

/-! ## Reading the marks one after the other -/

/-- How the marks of a text begin. -/
theorem Matches.cases_cons {At : Text → Text → Prop} {c : Char} {t : Text} {m : Coverage}
    (h : Matches At (c :: t) m) :
    (∃ u rest m', c :: t = u ++ rest ∧ m = u.map (·, true) ++ m' ∧ At (c :: t) rest ∧
      Matches At rest m') ∨
    ∃ m', m = (c, false) :: m' ∧ (∀ rest, ¬ At (c :: t) rest) ∧ Matches At t m' := by
  generalize hs : c :: t = s at h
  cases h with
  | nil => cases hs
  | hit hat hm => exact .inl ⟨_, _, _, rfl, rfl, hat, hm⟩
  | miss hnone hm =>
    cases hs
    exact .inr ⟨_, rfl, hnone, hm⟩

section Reading

variable {At : Text → Text → Prop} {u rest : Text} {m : Coverage}

/-- A stretch that is not covered: the pattern matches nowhere in it. -/
theorem matches_append_false_iff
    (hAt : ∀ t rest, At t rest → ∃ u, u ≠ [] ∧ t = u ++ rest) :
    Matches At (u ++ rest) (u.map (·, false) ++ m) ↔
      (∀ s, s <:+ u → s ≠ [] → ∀ r, ¬ At (s ++ rest) r) ∧ Matches At rest m := by
  induction u with
  | nil =>
    refine ⟨fun h => ⟨fun s hs hne => absurd (List.suffix_nil.mp hs) hne, h⟩, And.right⟩
  | cons c u ih =>
    simp only [List.cons_append, List.map_cons]
    constructor
    · intro h
      rcases h.cases_cons with ⟨v, r, m', hsplit, hm, hat, -⟩ | ⟨m', hm, hnone, htail⟩
      · obtain ⟨w, hw, hsplit'⟩ := hAt _ _ hat
        obtain rfl : v = w := List.append_cancel_right (hsplit.symm.trans hsplit')
        obtain ⟨d, v, rfl⟩ := List.exists_cons_of_ne_nil hw
        cases hm
      · obtain rfl := (List.cons.inj hm).2
        obtain ⟨hsuffix, hrest⟩ := ih.mp htail
        refine ⟨fun s hs hne => ?_, hrest⟩
        rcases List.suffix_cons_iff.mp hs with rfl | hs
        · exact hnone
        · exact hsuffix s hs hne
    · rintro ⟨hsuffix, hrest⟩
      refine .miss (hsuffix _ List.suffix_rfl (List.cons_ne_nil c u)) (ih.mpr ⟨?_, hrest⟩)
      exact fun s hs => hsuffix s (hs.trans (List.suffix_cons c u))

/-- A stretch that one match covers: behind it the matches go on. -/
theorem matches_append_true_iff (hAt : ∀ t r r', At t r → At t r' → r = r')
    (hne : u ≠ []) (hat : At (u ++ rest) rest) :
    Matches At (u ++ rest) (u.map (·, true) ++ m) ↔ Matches At rest m := by
  refine ⟨fun h => ?_, .hit hat⟩
  obtain ⟨c, u, rfl⟩ := List.exists_cons_of_ne_nil hne
  rcases h.cases_cons with ⟨v, r, m', hsplit, hm, hat', hrest⟩ | ⟨m', hm, -⟩
  · obtain rfl : r = rest := hAt _ _ _ hat' hat
    obtain rfl : v = c :: u := (List.append_cancel_right hsplit).symm
    rwa [List.append_cancel_left hm]
  · cases hm

end Reading

end StyleAudit.Text
