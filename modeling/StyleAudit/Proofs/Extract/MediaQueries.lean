import Mathlib.Data.List.Forall2
import StyleAudit.Proofs.Extract.TopLevel

/-!
# Media queries, read off the rules at the top level

`mediaQueries` goes through the rules at the top level once and files what stands inside each
`@media` rule behind what is there under its condition.  So a condition that occurs again gets the
rules of all its occurrences, one after the other and none twice, while inside one rule the last
value of a property counts.  What stands between the `@media` rules makes no difference.

* `mediaQueries_eq_walk` --- when there is an answer, and what it holds.
-/

namespace StyleAudit.Extract

open Css

/-- The `@media` rules of a list, in order. -/
def mediaAtRules (rules : List Rule) : List AtRule := atRules (·.isNamed "media".toList) rules

namespace MediaRule

/-- The entry says of the rule what the rule says: its selector, and the last value of each
property. -/
structure Describes (entry : MediaRule) (rule : QualifiedRule) : Prop where
  selector : entry.selector = rule.selector
  properties : Holds entry.properties rule

/-- The entry for a rule. -/
def ofQualified (rule : QualifiedRule) : MediaRule :=
  ⟨rule.selector, valuesByName rule.declarations⟩

theorem describes_ofQualified (rule : QualifiedRule) : (ofQualified rule).Describes rule :=
  ⟨rfl, holds_valuesByName rule⟩

/-- The entries for the rules of a list. -/
theorem filterMap_ofRule? (rules : List Rule) :
    rules.filterMap ofRule? = (qualifiedRules rules).map ofQualified := by
  rw [qualifiedRules, List.map_filterMap]
  congr
  funext rule
  cases rule <;> rfl

end MediaRule

/-- Files the rules inside a media query. -/
def fileMedia (found : Table (List MediaRule)) (r : AtRule) (inner : List Rule) :
    Table (List MediaRule) :=
  found.append r.condition (inner.filterMap MediaRule.ofRule?)

/-- What the question about media queries comes to for a stylesheet that is not refused. -/
theorem mediaQueries_eq {t : Text} {rules : List Rule} (h : loadSheet t = .ok rules) :
    mediaQueries (Utf8.encode t) =
      ((mediaAtRules rules).findSome? fun r => Rule.firstIssue? r.rules).elim
        (.ok ((mediaAtRules rules).foldl (fun found r => fileMedia found r r.rules) ∅))
        (.error ∘ insideFailure "media query" "in media query") := by
  rw [mediaQueries, readSheet_encode, h]
  show rules.foldlM addMedia ∅ = _
  rw [← foldlM_innerRules fileMedia, mediaAtRules]
  refine foldlM_atRules (fun found r => rfl) (fun found rule hrule => ?_) rules ∅
  cases rule with
  | atRule r => exact absurd rfl (hrule r)
  | qualified r => rfl
  | error issue => rfl

/-- What is filed under a condition. -/
theorem getElem?_foldl_fileMedia (l : List AtRule) (s : Text) :
    (l.foldl (fun found r => fileMedia found r r.rules) ∅)[s]? =
      match l.filter (·.condition == s) with
      | [] => none
      | hits => some (hits.flatMap fun r => (qualifiedRules r.rules).map .ofQualified) := by
  have hget := getElem?_foldl_appendAll AtRule.condition (fun _ => true)
    (fun r => r.rules.filterMap MediaRule.ofRule?) s l ∅
  simp only [if_true, Bool.true_and, MediaRule.filterMap_ofRule?] at hget
  simp only [fileMedia, MediaRule.filterMap_ofRule?]
  rw [hget]
  cases l.filter (·.condition == s) with
  | nil => exact Std.TreeMap.getElem?_emptyc
  | cons r hits => rfl

/-- **The media queries of a stylesheet, read off its `@media` rules.**  The question fails exactly
if one of the `@media` rules at the top level has a rule directly inside it that cannot be read, and
then with the first of these.  Otherwise the keys are the conditions of the `@media` rules.  Under
each stand, for all `@media` rules with this condition and in the order of the text, the qualified
rules directly inside, each with its selector and the last value of each of its properties. -/
theorem mediaQueries_eq_walk {t : Text} {rules : List Rule} (h : loadSheet t = .ok rules) :
    FailsInside (mediaQueries (Utf8.encode t)) "media query" "in media query"
        (mediaAtRules rules) ∧
      ∀ table, mediaQueries (Utf8.encode t) = .ok table → ∀ s,
        (s ∈ table ↔ ∃ r ∈ mediaAtRules rules, r.condition = s) ∧
        List.Forall₂ MediaRule.Describes (table.getD s [])
          (((mediaAtRules rules).filter (·.condition == s)).flatMap fun r =>
            qualifiedRules r.rules) := by
  have hrun := mediaQueries_eq h
  refine ⟨failsInside_of_eq hrun, fun table htable s => ?_⟩
  have hfiled := result_eq_of_eq hrun htable
  have hget := getElem?_foldl_fileMedia (mediaAtRules rules) s
  have hkey : (∃ r ∈ mediaAtRules rules, r.condition = s) ↔
      (mediaAtRules rules).filter (·.condition == s) ≠ [] := by
    simp only [ne_eq, List.filter_eq_nil_iff, beq_iff_eq, not_forall, not_not, exists_prop]
  rw [hkey, Std.TreeMap.mem_iff_isSome_getElem?, Std.TreeMap.getD_eq_getD_getElem?, ← hfiled, hget]
  cases (mediaAtRules rules).filter (·.condition == s) with
  | nil => exact ⟨by simp, .nil⟩
  | cons r hits =>
    refine ⟨by simp, ?_⟩
    rw [Option.getD_some, ← List.map_flatMap, List.forall₂_map_left_iff, List.forall₂_same]
    exact fun rule _ => MediaRule.describes_ofQualified rule

/-- What is read of the entries that describe rules can be read of the rules. -/
theorem map_eq_of_describes {γ : Type} {f : MediaRule → γ} {g : QualifiedRule → γ}
    (hfg : ∀ entry rule, MediaRule.Describes entry rule → f entry = g rule)
    {entries : List MediaRule} {rules : List QualifiedRule}
    (h : List.Forall₂ MediaRule.Describes entries rules) : entries.map f = rules.map g := by
  rw [← List.forall₂_eq_eq_eq, List.forall₂_map_left_iff, List.forall₂_map_right_iff]
  exact h.imp hfg

/-- Two media queries for one condition, the second in capitals and with a query inside, a rule
between them, and a query without a block. -/
def mixedQueries : Text :=
  "@media p\x7b.a\x7bb:c;b:d\x7d\x7d.x\x7b\x7d@MEDIA  p \x7b.e\x7b\x7d".toList ++
    "@media r\x7b.n\x7b\x7d\x7d.f\x7bb:g\x7d\x7d@media q;".toList

/-- The three rules for the repeated condition are listed with their last values of `b`; the query
without a block has an entry, and the query inside another has none. -/
theorem mediaQueries_eq_walk_mixedQueries :
    (∃ rules, loadSheet mixedQueries = .ok rules) ∧
      ∃ table, mediaQueries (Utf8.encode mixedQueries) = .ok table ∧
        (table.getD ['p'] []).map MediaRule.selector = [".a".toList, ".e".toList, ".f".toList] ∧
        (table.getD ['p'] []).map (·.properties[['b']]?) = [some ['d'], none, some ['g']] ∧
        ['q'] ∈ table ∧ ['r'] ∉ table := by
  let first : AtRule := ⟨"media".toList, ['p'], some ".a\x7bb:c;b:d\x7d".toList, 1⟩
  let second : AtRule := ⟨"MEDIA".toList, ['p'],
    some ".e\x7b\x7d@media r\x7b.n\x7b\x7d\x7d.f\x7bb:g\x7d".toList, 1⟩
  let third : AtRule := ⟨"media".toList, ['q'], none, 1⟩
  let rules : List Rule :=
    [.atRule first, .qualified ⟨".x".toList, [], 1, 1⟩, .atRule second, .atRule third]
  have hrules : parseStylesheet mixedQueries = rules := by decide +kernel
  have hload : loadSheet mixedQueries = .ok rules :=
    loadSheet_eq_ok_iff.mpr ⟨by decide, by rw [hrules]; rfl, hrules⟩
  have hqueries : mediaAtRules rules = [first, second, third] := by decide +kernel
  have hsound : ∀ r ∈ [first, second, third], Rule.firstIssue? r.rules = none := by decide +kernel
  obtain ⟨hfails, hwalk⟩ := mediaQueries_eq_walk hload
  rw [hqueries] at hfails hwalk
  obtain ⟨table, htable⟩ := hfails.ok_iff.mpr fun r hr => firstIssue?_eq_none_iff.mp (hsound r hr)
  obtain ⟨-, hentries⟩ := hwalk table htable ['p']
  refine ⟨⟨rules, hload⟩, table, htable, ?_, ?_, ?_, ?_⟩
  · rw [map_eq_of_describes (fun _ _ h => h.selector) hentries]
    decide +kernel
  · rw [map_eq_of_describes (fun _ _ h => h.properties ['b']) hentries]
    decide +kernel
  · rw [(hwalk table htable ['q']).1]
    decide +kernel
  · rw [(hwalk table htable ['r']).1]
    decide +kernel

end StyleAudit.Extract
