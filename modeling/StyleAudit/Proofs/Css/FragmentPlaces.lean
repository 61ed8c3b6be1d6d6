import StyleAudit.Proofs.Css.Stripping
import StyleAudit.Proofs.Text.Coverage

/-!
# Where the fragments of a selector stand

The fragments of a selector are cut from what is left of it when the pseudo-classes are taken out,
and that text does not tell where in the selector a fragment comes from.  With the pseudo-classes
marked in the selector (`stripPseudo_eq_bare`) it does: a fragment begins at a character that no
pseudo-class covers and that is no separator, if the last such character before it, leaving out
what is covered, is one (`FragmentAt`).  Every fragment has such a place, and what has one is a
fragment (`mem_fragments_iff`).

A fragment need not stand at its place as it is, since pseudo-classes may stand inside it.
-/

namespace StyleAudit.Css

open Text (Coverage Matches)

/-! ## Stretches and where they begin -/

/-- **A stretch begins** behind a character that separates, or at the front. -/
theorem mem_stretches_iff {p : Char → Bool} {t f : Text} :
    f ∈ stretches p t ↔ ∃ u c v, t = u ++ c :: v ∧ (∀ x ∈ u.getLast?, p x = true) ∧
      p c = false ∧ f = (c :: v).takeWhile fun x => !p x := by
  constructor
  · intro h
    fun_induction stretches p t with
    | case1 => cases h
    | case2 c t hc ih =>
      obtain ⟨u, d, v, rfl, hu, hd, rfl⟩ := ih h
      refine ⟨c :: u, d, v, rfl, fun x hx => ?_, hd, rfl⟩
      rw [List.getLast?_cons] at hx
      cases hlast : u.getLast? with
      | none =>
        rw [hlast] at hx
        cases hx
        exact hc
      | some y =>
        rw [hlast] at hx
        cases hx
        exact hu _ hlast
    | case3 c t hc ih =>
      rcases List.mem_cons.mp h with rfl | h
      · exact ⟨[], c, t, rfl, fun x hx => absurd hx (Option.not_mem_none x),
          Bool.eq_false_iff.mpr hc,
          by rw [List.takeWhile_cons_of_pos (by rw [Bool.eq_false_iff.mpr hc]; rfl)]⟩
      · obtain ⟨u, d, v, hbehind, hu, hd, rfl⟩ := ih h
        refine ⟨c :: (t.takeWhile (fun x => !p x) ++ u), d, v, ?_, fun x hx => ?_, hd, rfl⟩
        · rw [List.cons_append, List.append_assoc, ← hbehind, List.takeWhile_append_dropWhile]
        · rw [← List.cons_append, List.getLast?_append] at hx
          cases hlast : u.getLast? with
          | some y =>
            rw [hlast] at hx
            cases hx
            exact hu _ hlast
          | none =>
            -- the rest begins with a character that separates
            have hfirst := List.head?_dropWhile_not (fun x => !p x) t
            rw [hbehind, List.getLast?_eq_none_iff.mp hlast] at hfirst
            simp [hd] at hfirst
  · rintro ⟨u, c, v, rfl, hu, hc, rfl⟩
    have hfirst : (c :: v).takeWhile (fun x => !p x) ∈ stretches p (c :: v) := by
      rw [stretches, if_neg (Bool.eq_false_iff.mp hc),
        List.takeWhile_cons_of_pos (by rw [hc]; rfl)]
      exact List.mem_cons_self
    rcases List.eq_nil_or_concat u with rfl | ⟨u, x, rfl⟩
    · exact hfirst
    · rw [List.concat_eq_append] at hu ⊢
      rw [List.append_assoc, List.singleton_append,
        stretches_append_cons (hu x List.getLast?_concat)]
      exact List.mem_append_right _ hfirst

/-! ## Pseudo-classes as marks -/

theorem PseudoAt.exists_append {t rest : Text} (h : PseudoAt t rest) :
    ∃ u, u ≠ [] ∧ t = u ++ rest := by
  obtain @⟨colons, name, arguments, rest, hcolons, hne, -, -, -⟩ := h
  exact ⟨colons ++ name ++ arguments, by simp [hne], rfl⟩

/-- **Taking the pseudo-classes out of a selector leaves what they do not cover.** -/
theorem stripPseudo_eq_bare {s : Text} {m : Coverage} (h : Matches PseudoAt s m) :
    stripPseudo s = m.bare := by
  induction h with
  | nil => rw [stripPseudo]; rfl
  | hit hat _ ih =>
    rw [stripPseudo_of_pseudoAt hat, ih, Coverage.bare_append, Coverage.bare_covered,
      List.nil_append]
  | miss hnone _ ih => rw [stripPseudo_of_not_pseudoAt hnone, ih, Coverage.bare_cons_false]

/-! ## Places of fragments -/

/-- In the selector, the fragment `f` begins behind `lead`: at a character that no pseudo-class
covers and that is no separator.  The last such character before it is a separator, if there is
one, and the fragment goes on up to the next separator, without what is covered. -/
inductive FragmentAt (s : Text) : Text → Text → Prop
  | intro {m m' : Coverage} {c : Char} (hm : Matches PseudoAt s (m ++ (c, false) :: m'))
      (hbegins : ∀ x ∈ m.bare.getLast?, separatesFragments x = true)
      (hc : separatesFragments c = false) :
      FragmentAt s m.text ((c :: m'.bare).takeWhile fun x => !separatesFragments x)

/-- A character that is left of a marked text has its place in it. -/
theorem exists_of_bare_eq_append {m : Coverage} {u v : Text} {c : Char}
    (h : m.bare = u ++ c :: v) :
    ∃ m₁ m₂ : Coverage, m = m₁ ++ (c, false) :: m₂ ∧ m₁.bare = u ∧ m₂.bare = v := by
  obtain ⟨left, right, hfilter, rfl, hright⟩ := List.map_eq_append_iff.mp h
  obtain ⟨⟨d, covered⟩, right, rfl, rfl, rfl⟩ := List.map_eq_cons_iff.mp hright
  obtain ⟨m₁, rest, rfl, rfl, hrest⟩ := List.filter_eq_append_iff.mp hfilter
  obtain ⟨skipped, m₂, rfl, hskipped, hd, rfl⟩ := List.filter_eq_cons_iff.mp hrest
  obtain rfl : covered = false := by simpa using hd
  refine ⟨m₁ ++ skipped, m₂, by rw [List.append_assoc], ?_, rfl⟩
  have hnone : Coverage.bare skipped = [] := by
    rw [Coverage.bare, List.filter_eq_nil_iff.mpr hskipped]
    rfl
  rw [Coverage.bare_append, hnone, List.append_nil]
  rfl

/-- **Every fragment of a selector has a place in it, and what has one is a fragment.** -/
theorem mem_fragments_iff {s f : Text} :
    f ∈ fragments (stripPseudo s) ↔ ∃ lead, FragmentAt s lead f := by
  rw [fragments, mem_stretches_iff]
  constructor
  · rintro ⟨u, c, v, hleft, hu, hc, rfl⟩
    obtain ⟨m, hm⟩ := Text.exists_matches (fun t rest => PseudoAt.exists_append) s
    obtain ⟨m₁, m₂, rfl, rfl, rfl⟩ :=
      exists_of_bare_eq_append ((stripPseudo_eq_bare hm).symm.trans hleft)
    exact ⟨_, .intro hm hu hc⟩
  · rintro ⟨_, @⟨m, m', c, hm, hbegins, hc⟩⟩
    refine ⟨m.bare, c, m'.bare, ?_, hbegins, hc, rfl⟩
    rw [stripPseudo_eq_bare hm, Coverage.bare_append, Coverage.bare_cons_false]

/-- At its place stands the first character of a fragment, which is no separator. -/
theorem FragmentAt.exists_eq_append {s lead f : Text} (h : FragmentAt s lead f) :
    ∃ c rest, s = lead ++ c :: rest ∧ separatesFragments c = false := by
  obtain @⟨m, m', c, hm, -, hc⟩ := h
  refine ⟨c, m'.text, ?_, hc⟩
  rw [← hm.text_eq, Coverage.text_append, Coverage.text_cons]

end StyleAudit.Css
