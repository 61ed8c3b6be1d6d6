import Mathlib.Data.List.Forall2
import StyleAudit.Files.PathFilter
import StyleAudit.Proofs.Files.Ancestors
import StyleAudit.Proofs.Files.Filling
import StyleAudit.Proofs.Outcomes
import StyleAudit.Proofs.Text.SourceLines

/-!
# Patterns with slashes inside

A pattern with a slash in it is meant for whole paths, component by component.  What is matched is
the text of the path, and there a wildcard may stand for a stretch with slashes in it.  So the path
is cut at some of its slashes, into as many stretches as the pattern has components, and each of
these stretches is matched by its component (`fills_joinWith_iff`).  Such a stretch is one
component of the path or several in a row.

The path has at least as many components as the pattern.  If it has as many, the stretches are the
components (`flatMap_splitOn_of_length_le`), and the pattern is matched component by component.  If
it has more, it is matched all the same wherever a wildcard can swallow a slash, and every wildcard
can swallow one (`fills_map_slashFor`).

The components of a path are what stands between its slashes.  These are its parts if the path is
written plainly (`Path.IsPlainlyWritten`).

The main result is `isMatchedInStretches`; that a path with more components than the pattern can be
matched is `exists_match_across`.
-/

namespace StyleAudit

/-! ## As many pieces as there were -/

namespace Text

/-- Cutting pieces does not make them fewer. -/
theorem length_le_length_flatMap_splitOn (sep : Char) (ps : List Text) :
    ps.length ≤ (ps.flatMap (splitOn sep)).length := by
  induction ps with
  | nil => exact Nat.le_refl 0
  | cons p ps ih =>
    rw [List.flatMap_cons, List.length_append, length_splitOn, List.length_cons]
    omega

/-- If they are not more afterwards, none of them was cut. -/
theorem flatMap_splitOn_of_length_le {sep : Char} {ps : List Text}
    (h : (ps.flatMap (splitOn sep)).length ≤ ps.length) : ps.flatMap (splitOn sep) = ps := by
  induction ps with
  | nil => rfl
  | cons p ps ih =>
    rw [List.flatMap_cons, List.length_append, length_splitOn, List.length_cons] at h
    have hleast := length_le_length_flatMap_splitOn sep ps
    have hwhole : sep ∉ p := List.count_eq_zero.mp (by omega)
    rw [List.flatMap_cons, splitOn_of_notMem hwhole, ih (by omega), List.singleton_append]

end Text

/-! ## Fillings, component by component -/

namespace Glob

/-- What a component of a pattern matches, for one without `**`. -/
def FillsComponent (component stretch : Text) : Prop :=
  Fills (component.map Token.ofChar) stretch

/-- **A pattern is filled in component by component**, but the stretches that its components stand
for may have slashes in them. -/
theorem fills_joinWith_iff {components : List Text} (hne : components ≠ []) (t : Text) :
    Fills ((Text.joinWith '/' components).map Token.ofChar) t ↔
      ∃ stretches, Text.joinWith '/' stretches = t ∧
        List.Forall₂ FillsComponent components stretches := by
  induction components generalizing t with
  | nil => exact absurd rfl hne
  | cons p ps ih =>
    cases ps with
    | nil =>
      simp only [List.forall₂_cons_left_iff, List.forall₂_nil_left_iff]
      constructor
      · exact fun h => ⟨[t], rfl, t, [], h, rfl, rfl⟩
      · rintro ⟨_, rfl, b, _, hb, rfl, rfl⟩
        exact hb
    | cons q ps =>
      have ih := ih (List.cons_ne_nil q ps)
      have hslash : Token.ofChar '/' = .literal '/' := rfl
      have hsome : ∀ {stretches : List Text}, List.Forall₂ FillsComponent (q :: ps) stretches →
          stretches ≠ [] := by
        rintro _ hall rfl
        cases hall
      rw [Text.joinWith.eq_3 _ _ _ (List.cons_ne_nil q ps), List.map_append, List.map_cons, hslash,
        fills_append_literal_iff]
      constructor
      · rintro ⟨u, v, rfl, hp, hv⟩
        obtain ⟨stretches, rfl, hall⟩ := (ih v).mp hv
        exact ⟨u :: stretches, Text.joinWith.eq_3 _ _ _ (hsome hall), .cons hp hall⟩
      · rintro ⟨_, rfl, hall⟩
        obtain ⟨u, stretches, hp, hrest, rfl⟩ := List.forall₂_cons_left_iff.mp hall
        exact ⟨u, Text.joinWith '/' stretches, Text.joinWith.eq_3 _ _ _ (hsome hrest), hp,
          (ih _).mpr ⟨stretches, rfl, hrest⟩⟩

/-! ## Wildcards that swallow a slash -/

/-- Whether a character of a plain pattern may stand for another. -/
def isWildcard (c : Char) : Bool := c == '*' || c == '?'

/-- What becomes of a character of a plain pattern if every wildcard stands for a slash. -/
def slashFor (c : Char) : Char := if isWildcard c then '/' else c

/-- Every wildcard may stand for a slash. -/
theorem fills_map_slashFor (t : Text) : Fills (t.map Token.ofChar) (t.map slashFor) := by
  induction t with
  | nil => exact .nil
  | cons c t ih =>
    rw [List.map_cons, List.map_cons]
    by_cases hstar : c = '*'
    · subst hstar
      exact .stretch ['/'] ih
    · refine .one ?_ ih
      by_cases hany : c = '?'
      · subst hany
        rfl
      · have hplain : isWildcard c = false := by simp [isWildcard, hstar, hany]
        rw [Token.ofChar, if_neg hstar, if_neg hany, slashFor, hplain, if_neg Bool.false_ne_true]
        exact beq_self_eq_true c

/-- Then the text has one slash more for each of them. -/
theorem count_map_slashFor (t : Text) :
    (t.map slashFor).count '/' = t.count '/' + t.countP isWildcard := by
  induction t with
  | nil => rfl
  | cons c t ih =>
    rw [List.map_cons, List.count_cons, List.count_cons, List.countP_cons, ih, slashFor]
    by_cases hwild : isWildcard c = true
    · have hslash : (c == '/') = false := by
        rw [beq_eq_false_iff_ne]
        rintro rfl
        cases hwild
      simp only [hwild, hslash, if_true, beq_self_eq_true, Bool.false_eq_true, if_false]
      omega
    · simp only [hwild, Bool.false_eq_true, if_false]
      omega

/-- A pattern without wildcards stands for itself. -/
theorem eq_of_fills {t u : Text} (ht : ∀ c ∈ t, isWildcard c = false)
    (h : Fills (t.map Token.ofChar) u) : u = t := by
  induction t generalizing u with
  | nil => exact fills_nil_iff.mp h
  | cons c t ih =>
    obtain ⟨hc, ht⟩ := List.forall_mem_cons.mp ht
    obtain ⟨hstar, hany⟩ : c ≠ '*' ∧ c ≠ '?' := by simpa [isWildcard] using hc
    rw [List.map_cons, Token.ofChar, if_neg hstar, if_neg hany] at h
    obtain ⟨d, u, rfl, hd, hrest⟩ := (fills_one_iff (by simp)).mp h
    rw [eq_of_beq hd, ih ht hrest]

end Glob

/-! ## Patterns of a filter -/

/-- The path is written plainly: there is a name before, between and behind its slashes, and these
names are its parts. -/
def Path.IsPlainlyWritten (p : Path) : Prop := p.parts = (Text.splitOn '/' p.text).map .name

instance (p : Path) : Decidable p.IsPlainlyWritten := inferInstanceAs (Decidable (_ = _))

namespace FilterPattern

/-- A pattern with a slash inside or in front, without brackets and without `**`. -/
structure IsSlashed (f : FilterPattern) : Prop where
  accepted : ∃ raw, parse raw = .ok f
  slash : '/' ∈ f.text
  notLast : f.text.endsIn '/' = false
  plain : Glob.IsPlain f.text

/-- What is matched of a pattern that begins with a slash, or has one inside. -/
def anchored (f : FilterPattern) : Text := if f.text.startsWith '/' then f.text.tail else f.text

/-- The components of a pattern: what stands between its slashes. -/
def components (f : FilterPattern) : List Text := Text.splitOn '/' f.anchored

theorem compile_of_parse {raw : Text} {f : FilterPattern} (h : parse raw = .ok f) :
    Glob.compile f.text = .ok f.glob := by
  unfold parse at h
  split at h <;>
  · obtain ⟨g, hg, rfl⟩ := Outcomes.map_eq_ok_iff.mp h
    exact hg

section Slashed

variable {f : FilterPattern}

theorem compiledMatches_of_compile {t : Text} {g : Glob.Pattern} (h : Glob.compile t = .ok g)
    (u : Text) : compiledMatches t u = Glob.isMatch g u := by
  rw [compiledMatches, h]

/-- With slashes at its end, a pattern is compiled with `/**` in their place. -/
theorem appliesTo_of_endsIn_slash (h : f.text.endsIn '/' = true) (path : Path) :
    f.appliesTo path =
      compiledMatches (f.text.dropEndWhile (· == '/') ++ "/**".toList) path.text := by
  rw [appliesTo, if_pos h]

/-- With a slash only in front, it is compiled without that slash. -/
theorem appliesTo_of_slash_cons {t : Text} (ht : f.text = '/' :: t)
    (h : f.text.endsIn '/' = false) (path : Path) :
    f.appliesTo path = compiledMatches t path.text := by
  rw [appliesTo, if_neg (Bool.eq_false_iff.mp h), ht]
  rfl

/-- With a slash only inside, it is matched as it was read. -/
theorem appliesTo_of_mem_slash (h : f.text.endsIn '/' = false)
    (hstart : f.text.startsWith '/' = false) (hmem : '/' ∈ f.text) (path : Path) :
    f.appliesTo path = Glob.isMatch f.glob path.text := by
  rw [appliesTo, if_neg (Bool.eq_false_iff.mp h)]
  split
  next t ht =>
    rw [ht] at hstart
    cases hstart
  next => rw [if_pos (List.contains_iff_mem.mpr hmem)]

theorem anchored_suffix (f : FilterPattern) : f.anchored <:+ f.text := by
  unfold anchored
  split
  · exact List.tail_suffix _
  · exact List.suffix_rfl

/-- A slash in front is all that is left out. -/
theorem mem_anchored_iff {c : Char} (hc : c ≠ '/') : c ∈ f.anchored ↔ c ∈ f.text := by
  refine ⟨fun h => f.anchored_suffix.subset h, fun h => ?_⟩
  unfold anchored
  split
  next hstart =>
    obtain ⟨t, ht⟩ := List.head?_eq_some_iff.mp (eq_of_beq hstart)
    rw [ht] at h ⊢
    exact (List.mem_cons.mp h).resolve_left hc
  next => exact h

theorem compiledMatches_iff {t : Text} (h : Glob.IsPlain t) (u : Text) :
    compiledMatches t u = true ↔ Glob.FillsComponent t u := by
  rw [compiledMatches_of_compile h.compile]
  exact Glob.isMatch_map_ofChar_iff t u

/-- **A pattern with a slash is matched against the text of the path.** -/
theorem IsSlashed.appliesTo_iff (h : f.IsSlashed) (path : Path) :
    f.appliesTo path = true ↔ Glob.FillsComponent f.anchored path.text := by
  rw [← compiledMatches_iff (h.plain.of_infix f.anchored_suffix.isInfix), anchored]
  split
  next hstart =>
    obtain ⟨t, ht⟩ := List.head?_eq_some_iff.mp (eq_of_beq hstart)
    rw [appliesTo_of_slash_cons ht h.notLast, ht]
    rfl
  next hstart =>
    -- Without a slash in front, what was compiled when the pattern was read is used.
    obtain ⟨raw, hraw⟩ := h.accepted
    rw [appliesTo_of_mem_slash h.notLast (Bool.eq_false_iff.mpr hstart) h.slash,
      compiledMatches_of_compile (compile_of_parse hraw)]

end Slashed

/-- Whether each component of the pattern matches the stretch in its place. -/
def MatchesEach (f : FilterPattern) (stretches : List Text) : Prop :=
  List.Forall₂ (fun component stretch => compiledMatches component stretch = true) f.components
    stretches

section Slashed

variable {f : FilterPattern}

theorem components_ne_nil (f : FilterPattern) : f.components ≠ [] :=
  Text.splitOn_ne_nil '/' f.anchored

theorem length_components (f : FilterPattern) :
    f.components.length = f.anchored.count '/' + 1 := Text.length_splitOn '/' f.anchored

theorem IsSlashed.matchesEach_iff (h : f.IsSlashed) (stretches : List Text) :
    f.MatchesEach stretches ↔ List.Forall₂ Glob.FillsComponent f.components stretches := by
  have hplain : ∀ component ∈ f.components, Glob.IsPlain component := by
    intro component hcomponent
    have hinside := Text.infix_joinWith_of_mem '/' hcomponent
    rw [components, Text.joinWith_splitOn] at hinside
    exact h.plain.of_infix (hinside.trans f.anchored_suffix.isInfix)
  constructor
  · intro hall
    refine ((List.forall₂_and_left _ _).mpr ⟨hplain, hall⟩).imp ?_
    exact fun component stretch ⟨hc, hmatches⟩ => (compiledMatches_iff hc stretch).mp hmatches
  · intro hall
    refine ((List.forall₂_and_left _ _).mpr ⟨hplain, hall⟩).imp ?_
    exact fun component stretch ⟨hc, hfills⟩ => (compiledMatches_iff hc stretch).mpr hfills

/-- **A path is matched in stretches**, one for each component of the pattern. -/
theorem IsSlashed.exists_stretches_iff (h : f.IsSlashed) (path : Path) :
    f.appliesTo path = true ↔
      ∃ stretches, Text.joinWith '/' stretches = path.text ∧ f.MatchesEach stretches := by
  simp only [h.matchesEach_iff]
  rw [h.appliesTo_iff, Glob.FillsComponent,
    ← Glob.fills_joinWith_iff f.components_ne_nil, components, Text.joinWith_splitOn]

theorem MatchesEach.length_eq {stretches : List Text} (h : f.MatchesEach stretches) :
    f.components.length = stretches.length := List.Forall₂.length_eq h

/-- The stretches are cut into the components of the path. -/
theorem MatchesEach.splitOn_eq {stretches : List Text} (h : f.MatchesEach stretches) {t : Text}
    (ht : Text.joinWith '/' stretches = t) :
    Text.splitOn '/' t = stretches.flatMap (Text.splitOn '/') := by
  rw [← ht, Text.splitOn_joinWith_eq_flatMap]
  rintro rfl
  exact f.components_ne_nil (List.eq_nil_of_length_eq_zero h.length_eq)

/-- The path has as many components as the pattern, or more. -/
theorem IsSlashed.length_components_le (h : f.IsSlashed) {path : Path}
    (happlies : f.appliesTo path = true) :
    f.components.length ≤ (Text.splitOn '/' path.text).length := by
  obtain ⟨stretches, htext, hall⟩ := (h.exists_stretches_iff path).mp happlies
  rw [hall.length_eq, hall.splitOn_eq htext]
  exact Text.length_le_length_flatMap_splitOn '/' stretches

/-- **If it has as many, it is matched component by component.** -/
theorem IsSlashed.matchesEach_splitOn_iff (h : f.IsSlashed) (path : Path) :
    f.MatchesEach (Text.splitOn '/' path.text) ↔
      f.appliesTo path = true ∧ (Text.splitOn '/' path.text).length = f.components.length := by
  constructor
  · intro hall
    exact ⟨(h.exists_stretches_iff path).mpr ⟨_, Text.joinWith_splitOn '/' path.text, hall⟩,
      hall.length_eq.symm⟩
  · rintro ⟨happlies, hlength⟩
    obtain ⟨stretches, htext, hall⟩ := (h.exists_stretches_iff path).mp happlies
    rw [hall.splitOn_eq htext] at hlength ⊢
    rw [hall.length_eq] at hlength
    rwa [Text.flatMap_splitOn_of_length_le hlength.le]

/-- A path that is matched by a pattern without wildcards is spelled like it. -/
theorem IsSlashed.text_eq (h : f.IsSlashed) (hwild : ∀ c ∈ f.text, Glob.isWildcard c = false)
    {path : Path} (happlies : f.appliesTo path = true) : path.text = f.anchored :=
  Glob.eq_of_fills (fun c hc => hwild c (f.anchored_suffix.subset hc))
    ((h.appliesTo_iff path).mp happlies)

/-- The path that a pattern matches if all of its wildcards stand for slashes. -/
def slashed (f : FilterPattern) : Path := ⟨f.anchored.map Glob.slashFor⟩

/-- It has more components than the pattern if there is a wildcard. -/
theorem IsSlashed.notMem_of_length_eq
    (h : (Text.splitOn '/' f.slashed.text).length = f.components.length) :
    ∀ c ∈ f.text, Glob.isWildcard c = false := by
  rw [length_components, Text.length_splitOn, slashed, Glob.count_map_slashFor] at h
  have hnone : f.anchored.countP Glob.isWildcard = 0 := by omega
  intro c hc
  by_cases hslash : c = '/'
  · rw [hslash]
    rfl
  · have hmem := (f.mem_anchored_iff hslash).mpr hc
    simpa using List.countP_eq_zero.mp hnone c hmem

end Slashed

/-- How a pattern with a slash is matched. -/
structure IsMatchedInStretches (f : FilterPattern) : Prop where
  /-- The path can be cut at slashes into stretches that the components of the pattern match. -/
  applies_iff : ∀ path : Path, f.appliesTo path = true ↔
    ∃ stretches, Text.joinWith '/' stretches = path.text ∧ f.MatchesEach stretches
  /-- So the path has as many components as the pattern, or more. -/
  enough : ∀ path : Path, f.appliesTo path = true →
    f.components.length ≤ (Text.splitOn '/' path.text).length
  /-- If it has as many, each of them is matched by the component of the pattern in its place. -/
  inPlace_iff : ∀ path : Path, f.MatchesEach (Text.splitOn '/' path.text) ↔
    f.appliesTo path = true ∧ (Text.splitOn '/' path.text).length = f.components.length
  /-- That every path that is matched is matched so is true exactly of patterns without
  wildcards. -/
  alwaysInPlace_iff : (∀ path : Path, f.appliesTo path = true →
      f.MatchesEach (Text.splitOn '/' path.text)) ↔ ∀ c ∈ f.text, c ≠ '*' ∧ c ≠ '?'

/-- **A pattern with a slash is matched in stretches, and each of its wildcards reaches across
slashes.** -/
theorem isMatchedInStretches {f : FilterPattern} (h : f.IsSlashed) : f.IsMatchedInStretches := by
  have hwild : (∀ c ∈ f.text, Glob.isWildcard c = false) ↔ ∀ c ∈ f.text, c ≠ '*' ∧ c ≠ '?' := by
    simp [Glob.isWildcard]
  have halways : (∀ path : Path, f.appliesTo path = true →
      f.MatchesEach (Text.splitOn '/' path.text)) ↔ ∀ c ∈ f.text, Glob.isWildcard c = false := by
    constructor
    · intro hall
      -- The path with a slash for each wildcard is matched, so it is no longer than the pattern.
      have happlies := (h.appliesTo_iff f.slashed).mpr (Glob.fills_map_slashFor f.anchored)
      exact IsSlashed.notMem_of_length_eq ((h.matchesEach_splitOn_iff _).mp (hall _ happlies)).2
    · intro hnone path happlies
      refine (h.matchesEach_splitOn_iff path).mpr ⟨happlies, ?_⟩
      rw [h.text_eq hnone happlies, components]
  exact {
    applies_iff := h.exists_stretches_iff
    enough := fun _ => h.length_components_le
    inPlace_iff := h.matchesEach_splitOn_iff
    alwaysInPlace_iff := halways.trans hwild }

/-- The stylesheets in a directory. -/
def stylesPattern : FilterPattern :=
  ⟨"styles/*.css".toList, "styles/*.css".toList.map Glob.Token.ofChar, false⟩

theorem isSlashed_stylesPattern : stylesPattern.IsSlashed where
  accepted := ⟨"styles/*.css".toList, Outcomes.eq_ok_of_toOption (by decide +kernel)⟩
  slash := by decide +kernel
  notLast := by decide +kernel
  plain := ⟨by decide +kernel, by decide +kernel⟩

/-- Such a pattern matches what lies further below, and never less than two components. -/
theorem isMatchedInStretches_stylesPattern :
    stylesPattern.MatchesEach ["styles".toList, "a/b.css".toList] ∧
      stylesPattern.appliesTo ⟨"styles/a/b.css".toList⟩ = true ∧
      stylesPattern.appliesTo ⟨"styles.css".toList⟩ = false := by
  have hstretches := isMatchedInStretches isSlashed_stylesPattern
  have hall : stylesPattern.MatchesEach ["styles".toList, "a/b.css".toList] :=
    .cons (by decide +kernel) (.cons (by decide +kernel) .nil)
  refine ⟨hall, (hstretches.applies_iff _).mpr ⟨_, by decide +kernel, hall⟩, ?_⟩
  rw [Bool.eq_false_iff]
  exact fun happlies => absurd (hstretches.enough _ happlies) (by decide +kernel)

/-- **A pattern with a slash can match a path that has more components than itself.** -/
theorem exists_match_across :
    ¬ ∀ f : FilterPattern, f.IsSlashed → ∀ path : Path, path.IsPlainlyWritten →
      f.appliesTo path = true →
        path.parts.length = f.components.length ∧
          f.MatchesEach (Text.splitOn '/' path.text) := by
  intro hall
  have hsame := (hall stylesPattern isSlashed_stylesPattern ⟨"styles/a/b.css".toList⟩
    (by decide +kernel) (by decide +kernel)).1
  revert hsame
  decide +kernel

end FilterPattern
end StyleAudit
