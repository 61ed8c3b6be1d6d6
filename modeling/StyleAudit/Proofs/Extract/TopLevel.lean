import StyleAudit.Extract.Animations
import StyleAudit.Extract.Media
import StyleAudit.Proofs.Extract.Walk
import StyleAudit.Proofs.Outcomes

/-!
# Questions about at-rules at the top level

The questions about media queries and about animations look at the at-rules of one kind at the top
level of a stylesheet, in source order, and at the rules directly inside each.  Both stop at the
first issue among these (`FirstInside`) and file what they find under a text that belongs to the
at-rule.

What is read of a rule inside an at-rule is the same for both questions: its selector, and for each
property the last value that the rule gives it (`Holds`).  The two differ in what happens when a key
occurs again, and that is told where they are.

* `failsInside_of_eq` --- when the run over the at-rules fails, and with what;
* `holds_valuesByName` --- the values that are filed for a rule.
-/

namespace StyleAudit.Extract

open Css

/-! ## The rules in question -/

/-- The rule as a qualified rule, if it is one. -/
def qualified? : Rule → Option QualifiedRule
  | .qualified rule => some rule
  | _ => none

/-- The rule as an at-rule, if it is one of those that are selected. -/
def atRule? (selects : AtRule → Bool) : Rule → Option AtRule
  | .atRule rule => if selects rule then some rule else none
  | _ => none

/-- The qualified rules of a list, in order. -/
def qualifiedRules (rules : List Rule) : List QualifiedRule := rules.filterMap qualified?

/-- The at-rules of a list that are selected, in order. -/
def atRules (selects : AtRule → Bool) (rules : List Rule) : List AtRule :=
  rules.filterMap (atRule? selects)

/-! ## The first issue inside at-rules -/

/-- The issue is the first one inside the at-rules: the first rule that cannot be read directly
inside the first at-rule that has one. -/
inductive FirstInside : List AtRule → Issue → Prop
  | intro {before after : List AtRule} {rule : AtRule} {front rest : List Rule} {issue : Issue}
      (hbefore : ∀ r ∈ before, ∀ i, Rule.error i ∉ r.rules)
      (hrules : rule.rules = front ++ .error issue :: rest)
      (hfront : ∀ i, Rule.error i ∉ front) : FirstInside (before ++ rule :: after) issue

theorem findSome?_firstIssue?_eq_some_iff {l : List AtRule} {issue : Issue} :
    (l.findSome? fun r => Rule.firstIssue? r.rules) = some issue ↔ FirstInside l issue := by
  rw [List.findSome?_eq_some_iff]
  constructor
  · rintro ⟨before, rule, after, rfl, hissue, hbefore⟩
    obtain ⟨front, rest, hrules, hfront⟩ := firstIssue?_eq_some_iff.mp hissue
    exact .intro (fun r hr => firstIssue?_eq_none_iff.mp (hbefore r hr)) hrules hfront
  · rintro ⟨hbefore, hrules, hfront⟩
    exact ⟨_, _, _, rfl, firstIssue?_eq_some_iff.mpr ⟨_, _, hrules, hfront⟩,
      fun r hr => firstIssue?_eq_none_iff.mpr (hbefore r hr)⟩

theorem findSome?_firstIssue?_eq_none_iff {l : List AtRule} :
    (l.findSome? fun r => Rule.firstIssue? r.rules) = none ↔
      ∀ r ∈ l, ∀ issue, Rule.error issue ∉ r.rules := by
  simp only [List.findSome?_eq_none_iff, firstIssue?_eq_none_iff]

/-! ## The run over the at-rules -/

/-- How an issue inside an at-rule fails a question. -/
def insideFailure (label scope : String) (issue : Issue) : Failure :=
  .nested label (.parse (some scope) issue.fault.message issue.line issue.column)

theorem innerRules_eq (rule : AtRule) (label scope : String) :
    innerRules rule label scope =
      (Rule.firstIssue? rule.rules).elim (.ok rule.rules) (.error ∘ insideFailure label scope) := by
  unfold innerRules checkIssues
  cases Rule.firstIssue? rule.rules <;> rfl

/-- The outcome fails with the first issue inside the at-rules, and is an answer if none of them has
an issue. -/
structure FailsInside {α : Type} (x : Except Failure α) (label scope : String) (l : List AtRule) :
    Prop where
  error_iff : ∀ e, x = .error e ↔ ∃ issue, FirstInside l issue ∧ e = insideFailure label scope issue
  ok_iff : (∃ a, x = .ok a) ↔ ∀ r ∈ l, ∀ issue, Rule.error issue ∉ r.rules

/-- A run over rules that passes by all but some at-rules is a run over these. -/
theorem foldlM_atRules {σ : Type} {step : σ → Rule → Except Failure σ}
    {enter : σ → AtRule → Except Failure σ} {selects : AtRule → Bool}
    (hatRule : ∀ found r, step found (.atRule r) = if selects r then enter found r else .ok found)
    (hother : ∀ found rule, (∀ r, rule ≠ .atRule r) → step found rule = .ok found)
    (rules : List Rule) (found : σ) :
    rules.foldlM step found = (atRules selects rules).foldlM enter found := by
  rw [atRules, List.foldlM_filterMap]
  congr
  funext found rule
  cases rule with
  | qualified r => exact hother found _ fun _ => Rule.noConfusion
  | error issue => exact hother found _ fun _ => Rule.noConfusion
  | atRule r =>
    rw [hatRule, atRule?]
    split <;> rfl

/-- What the run over at-rules comes to.  `file` is given the rules inside each. -/
theorem foldlM_innerRules {σ : Type} (file : σ → AtRule → List Rule → σ) (label scope : String)
    (l : List AtRule) (found : σ) :
    l.foldlM (fun found r => innerRules r label scope >>= fun inner => .ok (file found r inner))
        found =
      (l.findSome? fun r => Rule.firstIssue? r.rules).elim
        (.ok (l.foldl (fun found r => file found r r.rules) found))
        (.error ∘ insideFailure label scope) := by
  let fails? (r : AtRule) : Option Failure :=
    (Rule.firstIssue? r.rules).map (insideFailure label scope)
  have hstep : ∀ (found : σ) (r : AtRule),
      (innerRules r label scope >>= fun inner => .ok (file found r inner)) =
        (fails? r).elim (.ok (file found r r.rules)) Except.error := by
    intro found r
    simp only [innerRules_eq, fails?]
    cases Rule.firstIssue? r.rules <;> rfl
  have hfails : l.findSome? fails? =
      (l.findSome? fun r => Rule.firstIssue? r.rules).map (insideFailure label scope) :=
    List.map_findSome?.symm
  rw [Outcomes.foldlM_eq_foldl hstep, hfails]
  cases l.findSome? fun r => Rule.firstIssue? r.rules <;> rfl

section Run

variable {α : Type} {label scope : String} {l : List AtRule} {x : Except Failure α} {result : α}

/-- When such a run fails, and with what. -/
theorem failsInside_of_eq
    (h : x = (l.findSome? fun r => Rule.firstIssue? r.rules).elim (.ok result)
      (.error ∘ insideFailure label scope)) : FailsInside x label scope l := by
  subst h
  refine ⟨fun e => ?_, ?_⟩
  · simp only [← findSome?_firstIssue?_eq_some_iff]
    cases l.findSome? fun r => Rule.firstIssue? r.rules with
    | none => simp
    | some issue => simp [eq_comm]
  · rw [← findSome?_firstIssue?_eq_none_iff]
    cases l.findSome? fun r => Rule.firstIssue? r.rules with
    | none => simp
    | some issue => simp

/-- What is answered is what the run has filed. -/
theorem result_eq_of_eq
    (h : x = (l.findSome? fun r => Rule.firstIssue? r.rules).elim (.ok result)
      (.error ∘ insideFailure label scope)) {a : α} (ha : x = .ok a) : result = a := by
  subst h
  cases hissue : l.findSome? fun r => Rule.firstIssue? r.rules with
  | none =>
    rw [hissue] at ha
    exact Except.ok.inj ha
  | some issue =>
    rw [hissue] at ha
    cases ha

end Run

/-! ## The values of a rule -/

/-- The table has for each property the last value that the rule gives it. -/
def Holds (values : Table Text) (rule : QualifiedRule) : Prop :=
  ∀ name, values[name]? =
    (rule.declarations.filter (·.name == name)).getLast?.map Declaration.value

theorem holds_valuesByName (rule : QualifiedRule) :
    Holds (valuesByName rule.declarations) rule := by
  intro name
  have hget := getElem?_foldl_insert Declaration.name Declaration.value (fun _ => true) name
    rule.declarations ∅
  simpa [valuesByName] using hget

/-- What is related to something is something. -/
theorem exists_of_rel_some {α β : Type} {r : α → β → Prop} {x : Option α} {b : β}
    (h : Option.Rel r x (some b)) : ∃ a, x = some a ∧ r a b := by
  cases h with
  | some h => exact ⟨_, rfl, h⟩

end StyleAudit.Extract
