import StyleAudit.Proofs.Files.Components
import StyleAudit.Proofs.Files.Grammar

/-!
# Patterns that are compiled again

A pattern is compiled when it is read, and one that does not compile is refused.  But that is not
always what it is matched with.  A pattern that ends in slashes gets `/**` in their place, and one
that begins with a slash loses it; what comes of that is compiled each time a path is asked about.
If it did not compile, the pattern would match nothing, and nobody would be told.

This does not happen.  Whether a text is a pattern depends on what stands around its stars and on
which bracket closes a class, so neither end of it can be changed without a look at the rest:

* the slashes at the end of a pattern are in no class, for no bracket behind them could close it, and
  what is left without them is a pattern (`Written.of_append_slashes`);
* `/**` may stand behind any pattern, since its stars are a whole component there
  (`Written.append_slash_cons`);
* a component begins behind a slash in front, and one begins at the front without it
  (`Written.slash_cons_iff`).

The main result is `compilesAgain_of_parse`.  It is about every pattern that a path is asked about,
for those of a filter have all been read (`PathFilter.Made.exists_parse`), and so have those of ignore
files (`PathFilter.exists_parse_of_mem_ignorePatterns`).
-/

namespace StyleAudit

/-! ## The ends of a pattern -/

namespace Glob

variable {fresh : Bool} {t : Text} {g : Pattern}

/-- A pattern is one without the slashes at its end. -/
theorem Written.dropEndWhile (h : Written fresh t) :
    Written fresh (t.dropEndWhile (· == '/')) := by
  obtain ⟨w, hw, hslashes⟩ := Text.exists_dropEndWhile_append (· == '/') t
  rw [← hw] at h
  exact h.of_append_slashes fun c hc => beq_iff_eq.mp (hslashes c hc)

/-- A pattern compiles with `/**` for the slashes at its end. -/
theorem exists_compile_below (h : compile t = .ok g) :
    ∃ g', compile (t.dropEndWhile (· == '/') ++ "/**".toList) = .ok g' := by
  have hwritten : Written true t := exists_compile_iff.mp ⟨g, h⟩
  exact exists_compile_iff.mpr (hwritten.dropEndWhile.append_slash_cons .lastStars)

/-- A pattern compiles without a slash in front. -/
theorem exists_compile_of_slash_cons (h : compile ('/' :: t) = .ok g) :
    ∃ g', compile t = .ok g' :=
  exists_compile_iff.mpr (Written.slash_cons_iff.mp (exists_compile_iff.mp ⟨g, h⟩))

end Glob

/-! ## Patterns that have been read -/

namespace FilterPattern

/-- What is compiled of a pattern when it is matched is a pattern, whatever its shape. -/
structure CompilesAgain (f : FilterPattern) : Prop where
  /-- The pattern as it stands was compiled when it was read. -/
  kept : Glob.compile f.text = .ok f.glob
  /-- With slashes at its end, it compiles with `/**` in their place, and is matched with that. -/
  below : f.text.endsIn '/' = true →
    ∃ g, Glob.compile (f.text.dropEndWhile (· == '/') ++ "/**".toList) = .ok g ∧
      ∀ path : Path, f.appliesTo path = Glob.isMatch g path.text
  /-- With a slash in front, it compiles without that slash, and unless it ends in another, it is
  matched with that. -/
  anchored : ∀ t, f.text = '/' :: t →
    ∃ g, Glob.compile t = .ok g ∧
      (f.text.endsIn '/' = false → ∀ path : Path, f.appliesTo path = Glob.isMatch g path.text)

/-- **A pattern that is read compiles again whenever it is matched.** -/
theorem compilesAgain_of_parse {raw : Text} {f : FilterPattern} (h : parse raw = .ok f) :
    f.CompilesAgain := by
  have hkept : Glob.compile f.text = .ok f.glob := compile_of_parse h
  refine ⟨hkept, fun hend => ?_, fun t ht => ?_⟩
  · obtain ⟨g, hg⟩ := Glob.exists_compile_below hkept
    refine ⟨g, hg, fun path => ?_⟩
    rw [appliesTo_of_endsIn_slash hend, compiledMatches_of_compile hg]
  · rw [ht] at hkept
    obtain ⟨g, hg⟩ := Glob.exists_compile_of_slash_cons hkept
    refine ⟨g, hg, fun hend path => ?_⟩
    rw [appliesTo_of_slash_cons ht hend, compiledMatches_of_compile hg]

/-- A pattern with `**` behind the slash in front, a slash in a class and two slashes at the end. -/
def slashedClass : FilterPattern :=
  ⟨"/**/[!/]*//".toList, [.literal '/', .directories, .except [.single '/'], .sequence,
    .literal '/', .literal '/'], true⟩

theorem parse_slashedClass : parse "!/**/[!/]*//".toList = .ok slashedClass :=
  Outcomes.eq_ok_of_toOption (by decide +kernel)

/-- With `/**` at its end it compiles, and without the slash in front as well. -/
theorem compilesAgain_of_parse_slashedClass :
    parse "!/**/[!/]*//".toList = .ok slashedClass ∧
      (∃ g, Glob.compile "/**/[!/]*/**".toList = .ok g ∧
        ∀ path : Path, slashedClass.appliesTo path = Glob.isMatch g path.text) ∧
      ∃ g, Glob.compile "**/[!/]*//".toList = .ok g := by
  have hagain := compilesAgain_of_parse parse_slashedClass
  have hbelow : slashedClass.text.dropEndWhile (· == '/') ++ "/**".toList =
      "/**/[!/]*/**".toList := by decide +kernel
  obtain ⟨g, hg, -⟩ := hagain.anchored "**/[!/]*//".toList (by decide +kernel)
  exact ⟨parse_slashedClass, hbelow ▸ hagain.below (by decide +kernel), g, hg⟩

end FilterPattern

/-! ## Patterns that are asked -/

namespace PathFilter

/-- A filter that is made of patterns, and changed. -/
inductive Made : PathFilter → Prop
  | ofPatterns {patterns : List Text} {ignoreName : Option Text} {f : PathFilter} :
    ofPatterns patterns ignoreName = .ok f → Made f
  | addPattern {f f' : PathFilter} {raw : Text} : Made f → f.addPattern raw = .ok f' → Made f'
  | withExtensions {f : PathFilter} (extensions : List Text) :
    Made f → Made (f.withExtensions extensions)
  | withoutIgnoreFiles {f : PathFilter} : Made f → Made f.withoutIgnoreFiles

theorem parse_of_parsePattern {raw : Text} {p : FilterPattern} (h : parsePattern raw = .ok p) :
    FilterPattern.parse raw = .ok p :=
  Outcomes.mapError_eq_ok_iff.mp h

/-- **The patterns of a filter have been read**, however it was made. -/
theorem Made.exists_parse {f : PathFilter} (h : Made f) :
    ∀ p ∈ f.patterns, ∃ raw, FilterPattern.parse raw = .ok p := by
  induction h with
  | @ofPatterns patterns ignoreName f hf =>
    obtain ⟨ps, hps, hf⟩ := Outcomes.bind_eq_ok_iff.mp hf
    cases hf
    intro p hp
    have hmem : .ok p ∈ patterns.map parsePattern := by
      rw [Outcomes.mapM_eq_ok_iff.mp hps]
      exact List.mem_map_of_mem hp
    obtain ⟨raw, -, hraw⟩ := List.mem_map.mp hmem
    exact ⟨raw, parse_of_parsePattern hraw⟩
  | @addPattern f f' raw _ hf ih =>
    obtain ⟨p, hp, hf⟩ := Outcomes.bind_eq_ok_iff.mp hf
    cases hf
    exact List.forall_mem_append.mpr
      ⟨ih, List.forall_mem_singleton.mpr ⟨raw, parse_of_parsePattern hp⟩⟩
  | withExtensions _ _ ih => exact ih
  | withoutIgnoreFiles _ ih => exact ih

/-- **The patterns of an ignore file have been read.** -/
theorem exists_parse_of_mem_ignorePatterns {t : Text} {p : FilterPattern}
    (h : p ∈ ignorePatterns t) : ∃ raw, FilterPattern.parse raw = .ok p := by
  obtain ⟨line, -, hline⟩ := List.mem_filterMap.mp h
  split at hline
  · cases hline
  · exact ⟨line, Outcomes.eq_ok_of_toOption hline⟩

end PathFilter
end StyleAudit
