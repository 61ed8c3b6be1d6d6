import StyleAudit.Extract.Sheet

/-!
# What media queries hold

`mediaQueries` files the rules inside each `@media` rule at the top level under its
condition.  A condition that occurs again gets the rules of all its occurrences, and one
without rules still has an entry.
-/

namespace StyleAudit.Extract

open Css

/-- A rule inside a media query. -/
structure MediaRule where
  selector : Text
  properties : Table Text

/-- What a qualified rule is in a media query; issues and at-rules are nothing. -/
def MediaRule.ofRule? : Rule → Option MediaRule
  | .qualified rule => some ⟨rule.selector, valuesByName rule.declarations⟩
  | _ => none

/-- Adds the rules inside one rule, if it is a media query. -/
def addMedia (found : Table (List MediaRule)) (rule : Rule) :
    Except Failure (Table (List MediaRule)) :=
  match rule with
  | .atRule r =>
    if r.isNamed "media".toList then do
      let inner ← innerRules r "media query" "in media query"
      return found.append r.condition (inner.filterMap MediaRule.ofRule?)
    else .ok found
  | _ => .ok found

/-- The rules of every media query under its condition. -/
def mediaQueries (bytes : List UInt8) : Except Failure (Table (List MediaRule)) := do
  (← readSheet bytes).foldlM addMedia ∅

end StyleAudit.Extract
