import Mathlib.Data.List.Forall2
import Mathlib.Order.Nat
import StyleAudit.Proofs.Audit.Locating
import StyleAudit.Proofs.Audit.Verdict
import StyleAudit.Proofs.Css.FragmentPlaces
import StyleAudit.Proofs.Css.LineEnds
import StyleAudit.Proofs.Css.Reparse
import StyleAudit.Proofs.Extract.UnusedSelectors

/-!
# Which line is shown for an unused selector

What is reported as unused is the text of a fragment, cut out of the selectors of a stylesheet and
freed from repetitions.  The finding is given the first line of the file that holds this text
(`Text.locate?`).

A fragment has its places in the file (`SelectorPlace`): behind what stands in front of a rule at
the top level, in its selector, where the fragment begins.  Of these there is a first one
(`FirstPlace`).  **The finding shows the line of this place exactly if that line holds the text of
the fragment and no line before it does** (`findings_of_unused`).  If the fragment stands at its
place as it is, what is shown is that line or one before it; and a line before it may hold the text
in a longer name, in a comment or in a value (`exists_finding_other_line`).
-/

namespace StyleAudit

open Css
open Text (HoldsFirst)

namespace Extract

/-! ## Places of fragments in a stylesheet -/

/-- In the stylesheet, the fragment `f` of a selector at the top level begins behind `front`: the
text in front of the rule, blanks, and the selector up to the place of the fragment in it. -/
inductive SelectorPlace (t f : Text) : Text → Prop
  | intro {start : List Lexeme} {rule : QualifiedRule} {before blanks lead : Text}
      (hstart : start ∈ ruleStarts (endPlace t) true (lexemes t))
      (hrule : ruleAt (endPlace t) start = .qualified rule)
      (hbefore : before ++ Lexeme.sourceOf start = t) (hblanks : ∀ c ∈ blanks, isBlank c = true)
      (hselector : blanks ++ rule.selector <+: Lexeme.sourceOf start)
      (hfragment : FragmentAt rule.selector lead f) : SelectorPlace t f (before ++ blanks ++ lead)

/-- No place of the fragment comes before this one. -/
structure FirstPlace (t f front : Text) : Prop where
  place : SelectorPlace t f front
  first : ∀ front', SelectorPlace t f front' → front.length ≤ front'.length

/-- **The selector of a rule stands at its front**, behind blanks if there are any. -/
theorem exists_selector_prefix {t : Text} {start : List Lexeme} {rule : QualifiedRule}
    (hstart : start ∈ ruleStarts (endPlace t) true (lexemes t))
    (hrule : ruleAt (endPlace t) start = .qualified rule) :
    ∃ before blanks, before ++ Lexeme.sourceOf start = t ∧ (∀ c ∈ blanks, isBlank c = true) ∧
      blanks ++ rule.selector <+: Lexeme.sourceOf start := by
  obtain ⟨hne, hsuffix⟩ := ruleStarts_suffix hstart
  obtain ⟨l, ls, rfl⟩ := List.exists_cons_of_ne_nil hne
  obtain ⟨before, hbefore, -⟩ := exists_front hsuffix
  obtain ⟨hresult, -⟩ := qualified_of_ruleAt hrule
  obtain ⟨-, -, -, -, -, hselector, -, -⟩ := qualifiedAhead_eq_ok hresult
  obtain ⟨blanks, trail, hsplit, hblanks, -⟩ := Text.exists_append_trim_append
    (Lexeme.sourceOf (valuesUntil opensBlock [] (l :: ls)).1)
  refine ⟨before, blanks, hbefore, hblanks, ?_⟩
  have hprefix : Lexeme.sourceOf (valuesUntil opensBlock [] (l :: ls)).1 <+:
      Lexeme.sourceOf (l :: ls) := by
    conv_rhs => rw [← valuesUntil_append opensBlock [] (l :: ls), Lexeme.sourceOf_append]
    exact List.prefix_append _ _
  rw [hsplit, ← hselector, ← List.append_assoc] at hprefix
  exact (List.prefix_append _ _).trans hprefix

theorem mem_qualifiedRules_iff {t : Text} {rule : QualifiedRule} :
    rule ∈ qualifiedRules (parseStylesheet t) ↔
      ∃ start ∈ ruleStarts (endPlace t) true (lexemes t),
        ruleAt (endPlace t) start = .qualified rule := by
  rw [qualifiedRules, List.mem_filterMap, parseStylesheet, rulesFrom_eq_map]
  constructor
  · rintro ⟨r, hr, hrule⟩
    obtain ⟨start, hstart, rfl⟩ := List.mem_map.mp hr
    refine ⟨start, hstart, ?_⟩
    cases hat : ruleAt (endPlace t) start with
    | qualified q =>
      rw [hat] at hrule
      cases hrule
      rfl
    | atRule q =>
      rw [hat] at hrule
      cases hrule
    | error issue =>
      rw [hat] at hrule
      cases hrule
  · rintro ⟨start, hstart, hrule⟩
    exact ⟨_, List.mem_map.mpr ⟨start, hstart, hrule⟩, rfl⟩

/-- **Every fragment of a selector at the top level has a place, and what has one is a
fragment.** -/
theorem mem_allFragments_iff {t f : Text} :
    f ∈ allFragments (parseStylesheet t) ↔ ∃ front, SelectorPlace t f front := by
  simp only [allFragments, List.mem_flatMap, mem_qualifiedRules_iff, mem_fragments_iff]
  constructor
  · rintro ⟨rule, ⟨start, hstart, hrule⟩, lead, hfragment⟩
    obtain ⟨before, blanks, hbefore, hblanks, hselector⟩ := exists_selector_prefix hstart hrule
    exact ⟨_, .intro hstart hrule hbefore hblanks hselector hfragment⟩
  · rintro ⟨_, @⟨start, rule, before, blanks, lead, hstart, hrule, -, -, -, hfragment⟩⟩
    exact ⟨rule, ⟨start, hstart, hrule⟩, lead, hfragment⟩

theorem exists_firstPlace {t f : Text} (h : f ∈ allFragments (parseStylesheet t)) :
    ∃ front, FirstPlace t f front := by
  classical
  obtain ⟨front, hfront⟩ := mem_allFragments_iff.mp h
  have hlength : ∃ n, ∃ front, SelectorPlace t f front ∧ front.length = n := ⟨_, front, hfront, rfl⟩
  obtain ⟨front, hplace, hmin⟩ := Nat.find_spec hlength
  exact ⟨front, hplace, fun front' hplace' => hmin ▸ Nat.find_min' hlength ⟨front', hplace', rfl⟩⟩

namespace SelectorPlace

variable {t f front : Text}

/-- At its place stands the first character of a fragment, which is no separator. -/
theorem exists_eq_append (h : SelectorPlace t f front) :
    ∃ c rest, t = front ++ c :: rest ∧ separatesFragments c = false := by
  obtain @⟨start, rule, before, blanks, lead, -, -, hbefore, -, ⟨behind, hbehind⟩, hfragment⟩ := h
  obtain ⟨c, rest, hselector, hc⟩ := hfragment.exists_eq_append
  refine ⟨c, rest ++ behind, ?_, hc⟩
  rw [← hbefore, ← hbehind, hselector]
  simp

/-- A fragment is not empty and has no separators in it. -/
theorem ne_nil_and_not_separates (h : SelectorPlace t f front) :
    f ≠ [] ∧ ∀ c ∈ f, separatesFragments c = false := by
  obtain ⟨r, -, hf⟩ := List.mem_flatMap.mp (mem_allFragments_iff.mpr ⟨front, h⟩)
  exact ⟨ne_nil_of_mem_stretches hf, fun c hc => not_of_mem_of_mem_stretches hf hc⟩

/-- **The place of a fragment is in a line of the text.** -/
theorem exists_sourceLine (h : SelectorPlace t f front) :
    ∃ l, t.sourceLines[front.count '\n']? = some l := by
  obtain ⟨c, rest, ht, hc⟩ := h.exists_eq_append
  have hfeed : '\n' ∉ [c] := by
    rw [List.mem_singleton]
    rintro rfl
    cases hc
  have hreturn : [c].getLast? ≠ some '\r' := by
    rintro ⟨rfl⟩
    cases hc
  obtain ⟨l, hl, -⟩ :=
    Text.exists_sourceLine_of_append (List.cons_ne_nil c []) hfeed hreturn front rest
  rw [List.singleton_append, ← ht] at hl
  exact ⟨l, hl⟩

/-- Where the fragment stands at its place as it is, the line holds it. -/
theorem infix_sourceLine (h : SelectorPlace t f front) (hf : front ++ f <+: t) :
    ∃ l, t.sourceLines[front.count '\n']? = some l ∧ f <:+: l := by
  obtain ⟨hne, hseparates⟩ := h.ne_nil_and_not_separates
  have hfeed : '\n' ∉ f := fun hmem => by cases hseparates '\n' hmem
  have hreturn : f.getLast? ≠ some '\r' :=
    fun hlast => by cases hseparates '\r' (List.mem_of_getLast? hlast)
  obtain ⟨rest, ht⟩ := hf
  have hline := Text.exists_sourceLine_of_append hne hfeed hreturn front rest
  rwa [← List.append_assoc, ht] at hline

end SelectorPlace

end Extract

namespace Audit

open Extract

/-! ## The line that is shown -/

/-- How the finding about an unused selector tells of its place: it shows the first line that holds
the text of the fragment. -/
structure ShownForFragment (t f : Text) (d : Diagnostic) : Prop where
  checkId : d.checkId = "unused_selector"
  shown : ShownByText t f d
  /-- The fragment has a first place. -/
  placed : ∃ front, FirstPlace t f front
  /-- The line of this place is a line of the file. -/
  stands : ∀ front, FirstPlace t f front → ∃ l, t.sourceLines[front.count '\n']? = some l
  /-- It is shown exactly if it is the first line that holds the text. -/
  shows_iff : ∀ front, FirstPlace t f front →
    (Shows t (front.count '\n') d ↔ HoldsFirst f t (front.count '\n'))
  /-- If the text stands at the place, no line behind it is shown. -/
  notBehind : ∀ front, FirstPlace t f front → front ++ f <+: t →
    ∃ j ≤ front.count '\n', Shows t j d

theorem shownForFragment_unusedDiagnostic {t f : Text}
    (h : f ∈ allFragments (parseStylesheet t)) (now : Moment) (path : Path)
    (severity : Severity) : ShownForFragment t f (unusedDiagnostic now path t severity f) := by
  have hshown : ShownByText t f (unusedDiagnostic now path t severity f) := shownByText rfl rfl
  exact {
    checkId := rfl
    shown := hshown
    placed := exists_firstPlace h
    stands := fun front hfirst => hfirst.place.exists_sourceLine
    shows_iff := fun front _ => hshown.shows_iff
    notBehind := fun front hfirst hf => by
      obtain ⟨l, hl, hinfix⟩ := hfirst.place.infix_sourceLine hf
      exact hshown.notBehind hl hinfix }

/-- What is unused are fragments of the stylesheet. -/
theorem mem_allFragments_of_mem_unused {bytes : List UInt8} {t html f : Text} {unused : List Text}
    (hvalidate : validate bytes = .ok t) (hunused : unusedSelectors bytes html = .ok unused)
    (hf : f ∈ unused) : f ∈ allFragments (parseStylesheet t) := by
  obtain ⟨rules, hread, hunused⟩ := Outcomes.bind_eq_ok_iff.mp hunused
  obtain ⟨t', hdecode, hload⟩ := exists_decode_of_readSheet hread
  cases (validate_eq_ok_iff.mp hvalidate).1.symm.trans hdecode
  obtain ⟨-, -, rfl⟩ := loadSheet_eq_ok_iff.mp hload
  cases hunused
  rw [selectorFragments_eq] at hf
  exact (mem_unused_iff.mp hf).1

/-- **An unused selector is shown where it first stands exactly if no line before that one holds its
text, and it does.**  In a valid file, with a page and with the check on, there is one finding for
each unused selector, in their order.  The fragment has a first place among the selectors at the top
level.  The finding shows the first line of the file that holds the text of the fragment; where the
fragment stands at its place as it is, that is the line of the place or one before it. -/
theorem findings_of_unused {c : Config} {tree : Node} {path : Path} {bytes : List UInt8} {t : Text}
    (now : Moment) (html : Text) (hread : tree.read path = .ok bytes)
    (hvalidate : validate bytes = .ok t) (hon : ¬ TurnsOff c "unused_selector") :
    ∃ unused ds, unusedSelectors bytes html = .ok unused ∧
      checkFile c tree now (some html) path = .ok ds ∧
      List.Forall₂ (ShownForFragment t) unused ds := by
  obtain ⟨unused, severity, hunused, -, hfindings⟩ :=
    @findings_of_validate_eq_ok c now path bytes t html hvalidate hon
  refine ⟨unused, _, hunused, (checkFile_of_read c now (some html) path hread).trans hfindings, ?_⟩
  rw [List.forall₂_map_right_iff, List.forall₂_same]
  exact fun f hf => shownForFragment_unusedDiagnostic
    (mem_allFragments_of_mem_unused hvalidate hunused hf) now path severity

/-- Two classes of which one has the name of the other in its own. -/
def longerName : Text := ".ab \x7b\x7d\n.a \x7b\x7d\n".toList

/-- The stylesheet in a directory without settings. -/
def longerNameFile : Node := .folder [("a.css".toList, .file (Utf8.encode longerName))]

theorem validate_longerName : validate (Utf8.encode longerName) = .ok longerName := by
  rw [validate_encode]
  exact Outcomes.eq_ok_of_toOption (by decide +kernel)

/-- The page has the class with the longer name. -/
def longerNamePage : Text := "<p class=\"ab\">".toList

/-- The unused class of the two has one finding. -/
theorem findings_of_unused_longerName :
    ∃ unused ds, unusedSelectors (Utf8.encode longerName) longerNamePage = .ok unused ∧
      checkFile .standard longerNameFile default (some longerNamePage) ⟨"a.css".toList⟩ = .ok ds ∧
      List.Forall₂ (ShownForFragment longerName) unused ds :=
  findings_of_unused default longerNamePage rfl validate_longerName
    (not_turnsOff_standard (by decide))

/-- It is found in the first line. -/
theorem checkFile_longerName :
    (unusedSelectors (Utf8.encode longerName) longerNamePage).toOption = some [".a".toList] ∧
      ((checkFile .standard longerNameFile default (some longerNamePage)
        ⟨"a.css".toList⟩).toOption.map (·.map Diagnostic.line)) = some [some 1] := by
  decide +kernel

/-- The shorter name has its places behind the first line. -/
theorem one_le_count_of_selectorPlace {front : Text}
    (h : SelectorPlace longerName ".a".toList front) : 1 ≤ front.count '\n' := by
  obtain @⟨start, rule, before, blanks, lead, hstart, hrule, hbefore, -, -, hfragment⟩ := h
  have hstarts : (ruleStarts (endPlace longerName) true (lexemes longerName)).map
      (fun start => (ruleAt (endPlace longerName) start, Lexeme.sourceOf start)) =
      [(.qualified ⟨".ab".toList, [], 1, 1⟩, longerName),
        (.qualified ⟨".a".toList, [], 2, 2⟩, ".a \x7b\x7d\n".toList)] := by decide +kernel
  have hmem := List.mem_map_of_mem (f := fun start =>
    (ruleAt (endPlace longerName) start, Lexeme.sourceOf start)) hstart
  rw [hstarts, hrule, List.mem_cons, List.mem_singleton, Prod.mk.injEq, Prod.mk.injEq] at hmem
  rcases hmem with ⟨hfirst, -⟩ | ⟨-, hsource⟩
  · cases hfirst
    exact absurd (mem_fragments_iff.mpr ⟨lead, hfragment⟩) (by decide +kernel)
  · have hfront : before = ".ab \x7b\x7d\n".toList := by
      rw [hsource] at hbefore
      exact List.append_cancel_right hbefore
    have hcount : before.count '\n' = 1 := by
      rw [hfront]
      decide
    rw [List.count_append, List.count_append, hcount]
    omega

/-- **An unused selector need not be shown where it stands.** -/
theorem exists_finding_other_line :
    ¬ ∀ c tree now html path bytes t unused ds, tree.read path = .ok bytes →
      validate bytes = .ok t → ¬ TurnsOff c "unused_selector" →
      unusedSelectors bytes html = .ok unused →
      checkFile c tree now (some html) path = .ok ds →
      List.Forall₂ (fun f d => ∃ front, FirstPlace t f front ∧
        d.line = some (front.count '\n' + 1)) unused ds := by
  intro hall
  obtain ⟨hunused, hlines⟩ := checkFile_longerName
  obtain ⟨ds, hds, hlines⟩ := Option.map_eq_some_iff.mp hlines
  obtain ⟨d, rfl, hline⟩ := List.map_eq_singleton_iff.mp hlines
  have hshown := hall .standard longerNameFile default longerNamePage ⟨"a.css".toList⟩ _ _ _ _ rfl
    validate_longerName (not_turnsOff_standard (by decide)) (Outcomes.eq_ok_of_toOption hunused)
    (Outcomes.eq_ok_of_toOption hds)
  obtain ⟨⟨front, hfirst, hfront⟩, -⟩ := List.forall₂_cons.mp hshown
  have hcount := one_le_count_of_selectorPlace hfirst.place
  rw [hline] at hfront
  have hone : 1 = front.count '\n' + 1 := Option.some.inj hfront
  omega

end Audit
end StyleAudit
