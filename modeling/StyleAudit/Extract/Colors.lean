import StyleAudit.Css.Color
import StyleAudit.Extract.Sheet

/-!
# Which colours a stylesheet uses

`colors` files every declaration that bears a colour under the selector of its rule.  Rules
inside at-rules count like those at the top level and keep their own selector; what is inside
a rule's block besides declarations does not count.
-/

namespace StyleAudit.Extract

open Css

/-- Adds the declarations of one rule that bear a colour. -/
def addColors (found : Table (List Text)) (rule : QualifiedRule) : Table (List Text) :=
  rule.declarations.foldl
    (fun found d =>
      if bearsColor d.name d.value then
        found.append rule.selector [d.name ++ ": ".toList ++ d.value]
      else found)
    found

/-- Adds the declarations of all rules that bear a colour, in source order. -/
def collectColors (found : Table (List Text)) : List Rule → Table (List Text)
  | [] => found
  | .qualified rule :: rules => collectColors (addColors found rule) rules
  | .atRule rule :: rules => collectColors (collectColors found rule.rules) rules
  | .error _ :: rules => collectColors found rules
termination_by rules => ruleWeight rules
decreasing_by
  all_goals simp only [ruleWeight_cons]
  · have := (Rule.qualified rule).weight_pos; omega
  · have := rule.weight_rules_lt; omega
  · have := (Rule.atRule rule).weight_pos; omega
  · simp only [Rule.weight]; omega

/-- The declarations that bear a colour, as `name: value` under their selectors. -/
def colors (bytes : List UInt8) : Except Failure (Table (List Text)) := do
  return collectColors ∅ (← readSheet bytes)

end StyleAudit.Extract
