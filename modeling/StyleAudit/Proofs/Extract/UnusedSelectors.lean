import Mathlib.Data.List.Induction
import StyleAudit.Extract.Unused
import StyleAudit.Proofs.Css.Compounds
import StyleAudit.Proofs.Extract.TopLevel

/-!
# The selectors that a page does not use

`unusedSelectors` lists the fragments of the selectors at the top level (`FragmentsOf`) that the
page does not reference (`Unreferenced`).  What is listed depends on the page, the order does not:
repetitions are left out before the page is looked at, so the list for a page is a part of one list
that belongs to the stylesheet alone.  For a page that contains another one it is a part of the list
for that page.

Repetitions are left out by keeping the first of them, so each entry stands where the fragment
appears first (`pairwise_idxOf_eraseDups`).

A fragment is cut out of the text of a selector, and it is a compound of the selector only if the
selector is plain.  Otherwise it may be a piece of a string, of the arguments of a pseudo-class or
of a name with an escape in it (`exists_listed_no_compound`).

* `unusedSelectors_eq_walk` --- what is listed, and in which order;
* `mem_unused_iff_compounds` --- what is listed, by the tokens of the selectors.
-/

namespace StyleAudit.Extract

open Css

/-! ## First appearances -/

section FirstAppearances

variable {α : Type} [BEq α]

/-- Entries that come one after the other in the order of first appearance are different. -/
theorem nodup_of_pairwise_idxOf {l found : List α}
    (h : found.Pairwise fun a b => l.idxOf a < l.idxOf b) : found.Nodup :=
  h.imp fun hlt heq => absurd (congrArg l.idxOf heq) (Nat.ne_of_lt hlt)

variable [LawfulBEq α]

/-- An entry that comes last makes a difference only if it is new. -/
theorem eraseDups_concat (l : List α) (x : α) :
    (l ++ [x]).eraseDups = if x ∈ l then l.eraseDups else l.eraseDups ++ [x] := by
  rw [List.eraseDups_append]
  by_cases hx : x ∈ l
  · have hnone : [x].removeAll l = [] := by simp [List.removeAll, hx]
    rw [if_pos hx, hnone, List.eraseDups_nil, List.append_nil]
  · have hall : [x].removeAll l = [x] := by simp [List.removeAll, hx]
    rw [if_neg hx, hall]
    rfl

/-- What is left without repetitions is in the order of first appearance. -/
theorem pairwise_idxOf_eraseDups (l : List α) :
    l.eraseDups.Pairwise fun a b => l.idxOf a < l.idxOf b := by
  induction l using List.reverseRecOn with
  | nil => exact .nil
  | append_singleton l x ih =>
    have hold : l.eraseDups.Pairwise fun a b => (l ++ [x]).idxOf a < (l ++ [x]).idxOf b :=
      ih.imp_of_mem fun ha hb hlt => by
        rwa [List.idxOf_append_of_mem (List.mem_eraseDups.mp ha),
          List.idxOf_append_of_mem (List.mem_eraseDups.mp hb)]
    rw [eraseDups_concat]
    split
    · exact hold
    next hx =>
      refine List.pairwise_append.mpr ⟨hold, List.pairwise_singleton _ _, fun a ha b hb => ?_⟩
      have hmem : a ∈ l := List.mem_eraseDups.mp ha
      cases List.mem_singleton.mp hb
      rw [List.idxOf_append_of_mem hmem, List.idxOf_append_of_notMem hx]
      exact Nat.lt_of_lt_of_le (List.idxOf_lt_length_of_mem hmem) (Nat.le_add_right _ _)

end FirstAppearances

/-! ## References -/

/-- The fragment names a class or an id: the attribute that holds it, and its value. -/
inductive Names : Text → Text → Text → Prop
  | ofClass (name : Text) : Names ('.' :: name) "class".toList name
  | ofId (name : Text) : Names ('#' :: name) "id".toList name

/-- The page has nowhere the attribute with the value, in quotes of either kind. -/
def Lacks (html kind value : Text) : Prop :=
  ∀ quote ∈ ['"', '\''], ¬ kind ++ '=' :: quote :: value ++ [quote] <:+: html

/-- The fragment names a class or an id that the page lacks. -/
def Unreferenced (html fragment : Text) : Prop :=
  ∃ kind name, Names fragment kind name ∧ Lacks html kind name

theorem hasAttribute_eq_false_iff {html : Text} {kind : String} {value : Text} :
    hasAttribute html kind value = false ↔ Lacks html kind.toList value := by
  simp only [hasAttribute, Lacks, Bool.or_eq_false_iff, ← Text.occursIn_iff,
    Bool.not_eq_true, List.forall_mem_cons, List.not_mem_nil, false_implies, implies_true, and_true]

theorem isReferenced_eq_false_iff {html f : Text} :
    isReferenced html f = false ↔ Unreferenced html f := by
  unfold isReferenced
  split
  next name =>
    rw [hasAttribute_eq_false_iff]
    constructor
    · exact fun h => ⟨_, name, .ofClass name, h⟩
    · rintro ⟨_, _, ⟨⟩, h⟩
      exact h
  next name =>
    rw [hasAttribute_eq_false_iff]
    constructor
    · exact fun h => ⟨_, name, .ofId name, h⟩
    · rintro ⟨_, _, ⟨⟩, h⟩
      exact h
  next hclass hid =>
    refine ⟨Bool.noConfusion, ?_⟩
    rintro ⟨_, name, hnames, -⟩
    cases hnames with
    | ofClass => exact absurd rfl (hclass name)
    | ofId => exact absurd rfl (hid name)

/-- What a page lacks, its parts lack. -/
theorem Unreferenced.of_infix {html page f : Text} (hpart : html <:+: page)
    (h : Unreferenced page f) : Unreferenced html f := by
  obtain ⟨kind, name, hnames, hlacks⟩ := h
  exact ⟨kind, name, hnames, fun quote hquote hocc => hlacks quote hquote (hocc.trans hpart)⟩

/-! ## The fragments of a stylesheet -/

/-- The list holds the fragments of the selectors of the rules, in order and with repetitions: each
selector loses its pseudo-classes and is cut at the characters between fragments. -/
inductive FragmentsOf : List QualifiedRule → List Text → Prop
  | nil : FragmentsOf [] []
  | cons {r : QualifiedRule} {rs : List QualifiedRule} {s : Text} {l : List Text}
      (hs : Stripped r.selector s) (hl : FragmentsOf rs l) :
      FragmentsOf (r :: rs) ((s.splitOnP separatesFragments).filter (· ≠ []) ++ l)

/-- The fragments of the selectors at the top level, in order and with repetitions. -/
def allFragments (rules : List Rule) : List Text :=
  (qualifiedRules rules).flatMap fun r => fragments (stripPseudo r.selector)

theorem fragmentsOf_iff {rs : List QualifiedRule} {l : List Text} :
    FragmentsOf rs l ↔ l = rs.flatMap fun r => fragments (stripPseudo r.selector) := by
  constructor
  · intro h
    induction h with
    | nil => rfl
    | cons hs _ ih =>
      rw [stripped_iff.mp hs, ih, List.flatMap_cons, fragments, stretches_eq_splitOnP]
  · rintro rfl
    induction rs with
    | nil => exact .nil
    | cons r rs ih =>
      rw [List.flatMap_cons, fragments, stretches_eq_splitOnP]
      exact .cons (stripped_stripPseudo _) ih

theorem selectorFragments_eq (rules : List Rule) :
    selectorFragments rules = (allFragments rules).eraseDups := by
  rw [selectorFragments, allFragments, qualifiedRules]
  congr 1
  induction rules with
  | nil => rfl
  | cons rule rules ih =>
    rw [List.flatMap_cons, ih]
    cases rule <;> rfl

/-- What the question about unused selectors comes to for a stylesheet that is not refused. -/
theorem unusedSelectors_eq {t : Text} {rules : List Rule} (h : loadSheet t = .ok rules)
    (html : Text) : unusedSelectors (Utf8.encode t) html =
      .ok ((allFragments rules).eraseDups.filter fun f => !isReferenced html f) := by
  rw [unusedSelectors, readSheet_encode, h, ← selectorFragments_eq]
  rfl

theorem mem_unused_iff {l : List Text} {html f : Text} :
    f ∈ l.eraseDups.filter (fun f => !isReferenced html f) ↔ f ∈ l ∧ Unreferenced html f := by
  rw [List.mem_filter, List.mem_eraseDups, Bool.not_eq_true', isReferenced_eq_false_iff]

/-- **The unused selectors of a stylesheet, read off its rules.**  There is always an answer.
Listed are the fragments of the selectors at the top level that name a class or an id which the page
lacks, each once and in the order in which they first appear in the stylesheet.  When something is
put in front of the page and behind it, entries may leave the list, and nothing else happens to
it. -/
theorem unusedSelectors_eq_walk {t : Text} {rules : List Rule} (h : loadSheet t = .ok rules) :
    ∃ l, FragmentsOf (qualifiedRules rules) l ∧ ∀ html, ∃ unused,
      unusedSelectors (Utf8.encode t) html = .ok unused ∧
      (∀ f, f ∈ unused ↔ f ∈ l ∧ Unreferenced html f) ∧
      unused.Nodup ∧ (unused.Pairwise fun f g => l.idxOf f < l.idxOf g) ∧
      ∀ front rest, ∃ fewer, unusedSelectors (Utf8.encode t) (front ++ html ++ rest) = .ok fewer ∧
        fewer.Sublist unused := by
  refine ⟨allFragments rules, fragmentsOf_iff.mpr rfl, fun html => ?_⟩
  have horder := (pairwise_idxOf_eraseDups (allFragments rules)).sublist
    (List.filter_sublist (p := fun f => !isReferenced html f))
  refine ⟨_, unusedSelectors_eq h html, fun f => mem_unused_iff, nodup_of_pairwise_idxOf horder,
    horder, fun front rest => ⟨_, unusedSelectors_eq h _, ?_⟩⟩
  refine List.monotone_filter_right _ fun f hf => ?_
  rw [Bool.not_eq_true', isReferenced_eq_false_iff] at hf ⊢
  exact hf.of_infix ⟨front, rest, rfl⟩

/-- Three selectors with repetitions and a pseudo-class, and an at-rule, whose inside does not
count. -/
def repeatedClasses : Text :=
  ".b:hover > #a, .b\x7b\x7d@media p\x7b.x\x7b\x7d\x7d.c.d .b,p\x7b\x7d#a\x7b\x7d".toList

/-- The page has one of the classes in single quotes, which leaves two of the three; with an id in
front of it one is left. -/
theorem unusedSelectors_eq_walk_repeatedClasses :
    (∃ rules, loadSheet repeatedClasses = .ok rules) ∧
      ∃ unused, unusedSelectors (Utf8.encode repeatedClasses) "class='b'".toList = .ok unused ∧
        unused.Nodup ∧ (".c.d".toList ∈ unused ∧ "#a".toList ∈ unused ∧ ".b".toList ∉ unused) ∧
        ∃ fewer, unusedSelectors (Utf8.encode repeatedClasses)
          ("id=\"a\" ".toList ++ "class='b'".toList ++ []) = .ok fewer ∧ fewer.Sublist unused := by
  let rules : List Rule := [.qualified ⟨".b:hover > #a, .b".toList, [], 1, 1⟩,
    .atRule ⟨"media".toList, ['p'], some ".x\x7b\x7d".toList, 1⟩,
    .qualified ⟨".c.d .b,p".toList, [], 1, 1⟩, .qualified ⟨"#a".toList, [], 1, 1⟩]
  have hrules : parseStylesheet repeatedClasses = rules := by decide +kernel
  have hload : loadSheet repeatedClasses = .ok rules :=
    loadSheet_eq_ok_iff.mpr ⟨by decide, by rw [hrules]; rfl, hrules⟩
  have hall : allFragments rules =
      [".b".toList, "#a".toList, ".b".toList, ".c.d".toList, ".b".toList, ['p'], "#a".toList] := by
    decide +kernel
  obtain ⟨l, hl, hwalk⟩ := unusedSelectors_eq_walk hload
  obtain ⟨unused, hunused, hmem, hnodup, -, hmore⟩ := hwalk "class='b'".toList
  simp only [(fragmentsOf_iff.mp hl).trans hall, ← isReferenced_eq_false_iff] at hmem
  refine ⟨⟨rules, hload⟩, unused, hunused, hnodup, ⟨?_, ?_, ?_⟩, hmore "id=\"a\" ".toList []⟩
  · rw [hmem]
    decide
  · rw [hmem]
    decide
  · rw [hmem]
    decide

/-! ## Fragments and compounds -/

/-- **What is listed, by the tokens of the selectors.**  Listed are the compounds of the plain
selectors at the top level that name a class or an id which the page lacks.  A fragment that is no
compound comes from a selector that is not plain, one with a part that holds a character which means
something else elsewhere. -/
theorem mem_unused_iff_compounds {t : Text} {rules : List Rule} (h : loadSheet t = .ok rules)
    (html : Text) : ∃ unused, unusedSelectors (Utf8.encode t) html = .ok unused ∧
      ∀ f, f ∈ unused ↔ Unreferenced html f ∧ ∃ r ∈ qualifiedRules rules,
        (IsPlain r.selector ∧ f ∈ compounds r.selector) ∨
          (¬ IsPlain r.selector ∧ f ∈ fragments (stripPseudo r.selector)) := by
  have hrule : ∀ (r : QualifiedRule) (f : Text), f ∈ fragments (stripPseudo r.selector) ↔
      (IsPlain r.selector ∧ f ∈ compounds r.selector) ∨
        (¬ IsPlain r.selector ∧ f ∈ fragments (stripPseudo r.selector)) := by
    intro r f
    by_cases hplain : IsPlain r.selector
    · simp only [hplain, true_and, not_true, false_and, or_false,
        fragments_stripPseudo_of_isPlain hplain]
    · simp only [hplain, false_and, not_false_eq_true, true_and, false_or]
  refine ⟨_, unusedSelectors_eq h html, fun f => ?_⟩
  rw [mem_unused_iff, and_comm, allFragments, List.mem_flatMap]
  simp only [← hrule]

/-- Selectors with brackets, strings, escapes and pseudo-classes, all of them plain. -/
def plainSelectors : Text :=
  ".x:not(.y)::before,#z[href=\"a:/b\"]>.m\\@x".toList ++ "\x7b\x7dp.k:hover\x7b\x7d".toList

/-- The compounds are listed whole, without their pseudo-classes; what stands in the arguments of
one is not listed, nor is what begins with a type. -/
theorem mem_unused_iff_compounds_plainSelectors :
    (∃ rules, loadSheet plainSelectors = .ok rules ∧
      ∀ r ∈ qualifiedRules rules, IsPlain r.selector) ∧
      ∃ unused, unusedSelectors (Utf8.encode plainSelectors) "class=\"x\"".toList = .ok unused ∧
        "#z[href=\"a:/b\"]".toList ∈ unused ∧ ".m\\@x".toList ∈ unused ∧ ".x".toList ∉ unused ∧
        ".y".toList ∉ unused ∧ "p.k".toList ∉ unused := by
  let rules : List Rule :=
    [.qualified ⟨".x:not(.y)::before,#z[href=\"a:/b\"]>.m\\@x".toList, [], 1, 1⟩,
    .qualified ⟨"p.k:hover".toList, [], 1, 1⟩]
  have hrules : parseStylesheet plainSelectors = rules := by decide +kernel
  have hload : loadSheet plainSelectors = .ok rules :=
    loadSheet_eq_ok_iff.mpr ⟨by decide, by rw [hrules]; rfl, hrules⟩
  have hplain : ∀ r ∈ qualifiedRules rules, IsPlain r.selector := by decide +kernel
  obtain ⟨unused, hunused, hmem⟩ := mem_unused_iff_compounds hload "class=\"x\"".toList
  simp only [← isReferenced_eq_false_iff] at hmem
  refine ⟨⟨rules, hload, hplain⟩, unused, hunused, ?_, ?_, ?_, ?_, ?_⟩
  all_goals
    rw [hmem]
    decide +kernel

/-- For a stylesheet that has the selector alone and an empty page, the fragment is listed although
it is no compound. -/
def Misreads (selector fragment : Text) : Prop :=
  ∃ rules unused, loadSheet (selector ++ "\x7b\x7d".toList) = .ok rules ∧
    unusedSelectors (Utf8.encode (selector ++ "\x7b\x7d".toList)) [] = .ok unused ∧
    fragment ∈ unused ∧ ∀ r ∈ qualifiedRules rules, fragment ∉ compounds r.selector

theorem misreads_of_parseStylesheet {selector f : Text}
    (hrules : parseStylesheet (selector ++ "\x7b\x7d".toList) = [.qualified ⟨selector, [], 1, 1⟩])
    (hcount : (selector ++ "\x7b\x7d".toList).count '\x7b' =
      (selector ++ "\x7b\x7d".toList).count '\x7d')
    (hfragment : f ∈ fragments (stripPseudo selector)) (hmissing : isReferenced [] f = false)
    (hnone : f ∉ compounds selector) : Misreads selector f := by
  have hload : loadSheet (selector ++ "\x7b\x7d".toList) = .ok [.qualified ⟨selector, [], 1, 1⟩] :=
    loadSheet_eq_ok_iff.mpr ⟨hcount, by rw [hrules]; rfl, hrules⟩
  refine ⟨_, _, hload, unusedSelectors_eq hload [], mem_unused_iff.mpr ⟨?_, ?_⟩, ?_⟩
  · exact List.mem_append_left _ hfragment
  · exact isReferenced_eq_false_iff.mp hmissing
  · intro r hr
    cases List.mem_singleton.mp hr
    exact hnone

/-- **What is listed need not be a compound.**  It may be a piece of the arguments of a pseudo-class
with parentheses inside, of a string in brackets, or of a name with an escaped colon. -/
theorem exists_listed_no_compound :
    Misreads ".x:not(:nth-child(2n), .y)".toList ".y)".toList ∧
      Misreads "[title=\"a .b\"]".toList ".b\"]".toList ∧
      Misreads ".c\\:hover".toList ".c\\".toList := by
  refine ⟨?_, ?_, ?_⟩
  all_goals
    refine misreads_of_parseStylesheet ?_ ?_ ?_ ?_ ?_
    all_goals decide +kernel

end StyleAudit.Extract
