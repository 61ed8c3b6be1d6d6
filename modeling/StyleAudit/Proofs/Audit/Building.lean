import StyleAudit.Audit.Run
import StyleAudit.Proofs.Files.Grammar
import StyleAudit.Proofs.Settings.Changes

/-!
# From a configuration to a path filter

The path patterns of a configuration are compiled twice.  The validation compiles them without any
`!` in front and without slashes at either end; the path filter takes one `!` off and compiles the
rest as it stands.  So a pattern that passed can still be refused.  This file says which.

* Slashes make no difference (`written_of_stripWhile`), for a component of a pattern may begin
  behind a slash and end in front of one.
* A `!` that the filter leaves in front makes a difference only to a `**` right behind it, which
  is then no whole component (`written_bangs_append_iff`, `Written.not_fresh_iff`).

So the patterns that are refused are those with two or more `!` and then `**` (`hasStuckStars`).
All others that passed are read (`exists_parsePattern`); of a pattern that it refuses the filter
says where the last `!` is (`parsePattern_of_hasStuckStars`).  The main result is
`ofConfig_of_validate`; a configuration that passes and is refused is `doublyNegated`.
-/

namespace StyleAudit

open Glob (Written)

/-! ## Marks in front of a pattern -/

/-- A pattern with two or more `!` in front and two stars behind them. -/
def hasStuckStars (pattern : Text) : Bool :=
  ['!', '!'].isPrefixOf pattern && ['*', '*'].isPrefixOf (pattern.dropWhile (· == '!'))

theorem eq_of_mem_takeWhile {a c : Char} {t : Text} (h : c ∈ t.takeWhile (· == a)) : c = a := by
  simpa using List.all_eq_true.mp (List.all_takeWhile (p := (· == a)) (l := t)) c h

/-- Every text is some marks and something that does not begin with one. -/
theorem exists_bangs_append (raw : Text) :
    ∃ n rest, raw = List.replicate n '!' ++ rest ∧ raw.dropWhile (· == '!') = rest ∧
      (raw.takeWhile (· == '!')).length = n ∧ rest.head? ≠ some '!' := by
  refine ⟨_, _, ?_, rfl, rfl, fun hhead => ?_⟩
  · have hbangs : raw.takeWhile (· == '!') =
        List.replicate (raw.takeWhile (· == '!')).length '!' :=
      List.eq_replicate_iff.mpr ⟨rfl, fun _ hc => eq_of_mem_takeWhile hc⟩
    rw [← hbangs, List.takeWhile_append_dropWhile]
  · have hnot := List.head?_dropWhile_not (· == '!') raw
    rw [hhead] at hnot
    cases hnot

theorem isPrefixOf_bangs_append {n : Nat} {rest : Text} (h : rest.head? ≠ some '!') :
    ['!', '!'].isPrefixOf (List.replicate n '!' ++ rest) = decide (1 < n) := by
  cases rest with
  | nil => cases n with
    | zero => rfl
    | succ n => cases n <;> rfl
  | cons c rest =>
    have hc : ('!' == c) = false := by
      rw [beq_eq_false_iff_ne]
      rintro rfl
      exact h rfl
    cases n with
    | zero => simp [List.isPrefixOf, hc]
    | succ n =>
      cases n with
      | zero => simp [List.isPrefixOf, hc]
      | succ n => simp [List.isPrefixOf, List.replicate_succ]

namespace Glob

/-- No component begins behind marks. -/
theorem written_bangs_append_iff {t : Text} (n : Nat) :
    ∀ {fresh : Bool}, Written fresh (List.replicate (n + 1) '!' ++ t) ↔ Written false t := by
  have hone : ∀ {fresh : Bool} {u : Text}, Written fresh ('!' :: u) ↔ Written false u := by
    intro fresh u
    refine ⟨fun h => ?_, fun h => .char (by decide) (by decide) h⟩
    cases h with
    | char _ _ h => exact h
  induction n with
  | zero => exact hone
  | succ n ih =>
    intro fresh
    rw [List.replicate_succ, List.cons_append, hone, ih]

theorem exists_compileFrom_bangs_append {t : Text} (n : Nat) :
    ∀ (position : Nat) (before : Option Char) (tokens : List Token),
      ∃ more, compileFrom position before tokens (List.replicate (n + 1) '!' ++ t) =
        compileFrom (position + (n + 1)) (some '!') more t := by
  induction n with
  | zero => exact fun _ _ _ => ⟨_, compileFrom_of_char (by decide) (by decide)⟩
  | succ n ih =>
    intro position before tokens
    obtain ⟨more, hmore⟩ := ih (position + 1) (some '!') _
    refine ⟨more, ?_⟩
    rw [List.replicate_succ, List.cons_append, compileFrom_of_char (by decide) (by decide), hmore,
      Nat.add_assoc, Nat.add_comm 1]

/-- A text is a pattern if it is one without the slashes at its ends. -/
theorem written_of_stripWhile {t : Text} (h : Written true (Text.stripWhile (· == '/') t)) :
    Written true t := by
  obtain ⟨w, hw, hslashes⟩ := Text.exists_dropEndWhile_append (· == '/') (t.dropWhile (· == '/'))
  rw [← List.takeWhile_append_dropWhile (p := (· == '/')) (l := t), ← hw]
  refine Written.slashes_append (fun _ hc => eq_of_mem_takeWhile hc) ?_
  exact h.append_slashes fun c hc => beq_iff_eq.mp (hslashes c hc)

end Glob

/-! ## What a path filter refuses -/

/-- A filter takes one of the marks off. -/
theorem exists_parse_eq {n : Nat} {rest : Text} (h : rest.head? ≠ some '!') :
    ∃ includes, FilterPattern.parse (List.replicate n '!' ++ rest) =
      (Glob.compile (List.replicate (n - 1) '!' ++ rest)).map fun g =>
        ⟨List.replicate (n - 1) '!' ++ rest, g, includes⟩ := by
  cases n with
  | succ n => exact ⟨true, rfl⟩
  | zero =>
    refine ⟨false, ?_⟩
    cases rest with
    | nil => rfl
    | cons c rest =>
      refine FilterPattern.parse.eq_2 _ fun t ht => h ?_
      rw [(List.cons.inj ht).1, List.head?_cons]

/-- What passed the validation is a pattern without its marks. -/
theorem written_of_checkPattern {raw : Text} (h : Config.checkPattern raw = .ok ()) :
    Written true (raw.dropWhile (· == '!')) := by
  rw [Config.checkPattern] at h
  split at h
  next g hg => exact Glob.written_of_stripWhile (Glob.exists_compile_iff.mp ⟨g, hg⟩)
  next => cases h

/-- The failure of a path filter that refuses the stars of a pattern.  The position is that of the
last mark, in what the filter reads. -/
def refusalOfStars (pattern : Text) : Failure :=
  .pattern ("Invalid pattern '" ++ String.ofList pattern ++ "': " ++
    Glob.Fault.message ⟨(pattern.takeWhile (· == '!')).length - 2, .partialComponent⟩)

/-- **A pattern that passed the validation is refused only for its stars.** -/
theorem exists_parsePattern {raw : Text} (h : Config.checkPattern raw = .ok ())
    (hstars : hasStuckStars raw = false) : ∃ p, PathFilter.parsePattern raw = .ok p := by
  have hwritten := written_of_checkPattern h
  obtain ⟨n, rest, rfl, hrest, -, hhead⟩ := exists_bangs_append raw
  rw [hrest] at hwritten
  rw [hasStuckStars, hrest, isPrefixOf_bangs_append hhead] at hstars
  have hfilter : Written true (List.replicate (n - 1) '!' ++ rest) := by
    obtain hfew | hmany := Nat.lt_or_ge 1 n
    · rw [decide_eq_true hfew, Bool.true_and] at hstars
      obtain ⟨m, hm⟩ : ∃ m, n - 1 = m + 1 := ⟨n - 2, by omega⟩
      rw [hm, Glob.written_bangs_append_iff, hwritten.not_fresh_iff]
      intro hprefix
      rw [List.isPrefixOf_iff_prefix.mpr hprefix] at hstars
      cases hstars
    · rwa [Nat.sub_eq_zero_of_le hmany]
  obtain ⟨g, hg⟩ := Glob.exists_compile_iff.mpr hfilter
  obtain ⟨includes, hparse⟩ := exists_parse_eq (n := n) hhead
  rw [PathFilter.parsePattern, hparse, hg]
  exact ⟨_, rfl⟩

/-- **Stars behind two or more marks are refused.** -/
theorem parsePattern_of_hasStuckStars {raw : Text} (h : Config.checkPattern raw = .ok ())
    (hstars : hasStuckStars raw = true) :
    PathFilter.parsePattern raw = .error (refusalOfStars raw) := by
  have hwritten := written_of_checkPattern h
  rw [refusalOfStars]
  obtain ⟨n, rest, hraw, hrest, hmarks, hhead⟩ := exists_bangs_append raw
  rw [hrest] at hwritten
  rw [hasStuckStars, hrest, hraw, isPrefixOf_bangs_append hhead, Bool.and_eq_true,
    decide_eq_true_eq, List.isPrefixOf_iff_prefix] at hstars
  obtain ⟨hmany, t, rfl⟩ := hstars
  -- A third star would not have passed.
  have hthird : t.head? ≠ some '*' := by
    cases hwritten with
    | star hne _ => exact absurd rfl hne
    | lastStars => simp
    | stars _ => simp
    | char hne _ _ => exact absurd rfl hne
  have hcompile : Glob.compile (List.replicate (n - 1) '!' ++ (['*', '*'] ++ t)) =
      .error ⟨n - 2, .partialComponent⟩ := by
    obtain ⟨m, hm⟩ : ∃ m, n - 1 = m + 1 := ⟨n - 2, by omega⟩
    obtain ⟨more, hmore⟩ := Glob.exists_compileFrom_bangs_append m (t := ['*', '*'] ++ t)
      0 none []
    rw [hm, Glob.compile, hmore]
    refine (Glob.compileFrom_of_misplaced (by decide) hthird).trans ?_
    rw [show 0 + (m + 1) - 1 = n - 2 by omega]
  obtain ⟨includes, hparse⟩ := exists_parse_eq (n := n) hhead
  rw [hmarks, PathFilter.parsePattern, hraw, hparse, hcompile]
  rfl

/-! ## Configurations -/

namespace Auditor

variable {c : Config}

/-- An auditor is there exactly if its path filter is. -/
theorem ofConfig_eq (c : Config) :
    ofConfig c = match c.paths.patterns.mapM PathFilter.parsePattern with
      | .ok patterns => .ok ⟨c, (⟨patterns, ignoreName? c.paths, ["css".toList]⟩ :
          PathFilter).withExtensions c.paths.extensions⟩
      | .error e => .error (.configuration ("Failed to create path filter: " ++ e.message)) := by
  rw [ofConfig, PathFilter.ofPatterns]
  cases c.paths.patterns.mapM PathFilter.parsePattern with
  | ok patterns => rfl
  | error e => rfl

/-- **A configuration that passes the validation can be used, unless the stars of one of its
patterns are stuck behind marks.**  In that case the first pattern of this kind is refused.  It
makes no difference whether the configuration is validated once more on the way. -/
theorem ofConfig_of_validate (h : c.validate = .ok ()) :
    create c = ofConfig c ∧
    ((∃ a, ofConfig c = .ok a) ↔ ∀ p ∈ c.paths.patterns, hasStuckStars p = false) ∧
    ∀ p, c.paths.patterns.find? hasStuckStars = some p →
      ofConfig c = .error (.configuration
        ("Failed to create path filter: " ++ (refusalOfStars p).message)) := by
  have hpass := (Config.forall_of_validate h).2
  have hrefused : ∀ p, c.paths.patterns.find? hasStuckStars = some p →
      ofConfig c = .error (.configuration
        ("Failed to create path filter: " ++ (refusalOfStars p).message)) := by
    intro p hp
    obtain ⟨hstars, before, after, hsplit, hbefore⟩ := List.find?_eq_some_iff_append.mp hp
    have hread : ∀ q ∈ before, ∃ r, PathFilter.parsePattern q = .ok r := by
      intro q hq
      have hmem : q ∈ c.paths.patterns := by
        rw [hsplit]
        exact List.mem_append_left _ hq
      exact exists_parsePattern (hpass q hmem) (by simpa using hbefore q hq)
    have hmem : p ∈ c.paths.patterns := List.mem_of_find?_eq_some hp
    rw [ofConfig_eq, hsplit, Outcomes.mapM_append_cons_eq_error hread
      (parsePattern_of_hasStuckStars (hpass p hmem) hstars)]
  refine ⟨?_, ⟨?_, ?_⟩, hrefused⟩
  · rw [create, h]
    rfl
  · rintro ⟨a, ha⟩
    cases hfind : c.paths.patterns.find? hasStuckStars with
    | none => simpa using List.find?_eq_none.mp hfind
    | some p =>
      rw [hrefused p hfind] at ha
      cases ha
  · intro hall
    obtain ⟨patterns, hpatterns⟩ := Outcomes.exists_mapM_iff.mpr fun p hp =>
      exists_parsePattern (hpass p hp) (hall p hp)
    rw [ofConfig_eq, hpatterns]
    exact ⟨_, rfl⟩

/-- The standard configuration with a pattern that lets in again what is let in again. -/
def doublyNegated : Config := Config.standard.change (.addPattern "!!**".toList)

theorem validate_doublyNegated : doublyNegated.validate = .ok () :=
  Outcomes.eq_ok_of_toOption (by decide +kernel)

/-- The pattern with two marks is refused. -/
theorem ofConfig_of_validate_doublyNegated :
    doublyNegated.validate = .ok () ∧
      ofConfig doublyNegated = .error (.configuration ("Failed to create path filter: " ++
        ("Pattern error: Invalid pattern '!!**': Pattern syntax error near position 0: " ++
          "recursive wildcards must form a single path component"))) :=
  ⟨validate_doublyNegated,
    (ofConfig_of_validate validate_doublyNegated).2.2 "!!**".toList (by decide)⟩

/-- Not every configuration that passes the validation can be used. -/
theorem exists_refused_config :
    ¬ ∀ c : Config, c.validate = .ok () → ∃ a, ofConfig c = .ok a := by
  intro hall
  obtain ⟨a, ha⟩ := hall doublyNegated validate_doublyNegated
  have hrefused : (ofConfig doublyNegated).isOk = false := by decide +kernel
  rw [ha] at hrefused
  cases hrefused

end Auditor
end StyleAudit
