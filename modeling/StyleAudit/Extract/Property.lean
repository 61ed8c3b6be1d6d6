import StyleAudit.Extract.Sheet

/-!
# Who sets a property

`property` finds the rules that set one property, in at-rules as well, and files the value
under the rule's selector.  Of several values for one selector the last in source order
counts.  A value marked important keeps its mark.
-/

namespace StyleAudit.Extract

open Css

/-- The value of a declaration with its mark. -/
def markedValue (d : Declaration) : Text :=
  if d.important then d.value ++ " !important".toList else d.value

/-- Files the values that one rule gives to the property. -/
def addProperty (name : Text) (found : Table Text) (rule : QualifiedRule) : Table Text :=
  rule.declarations.foldl
    (fun found d =>
      if d.isNamed name then found.insert rule.selector (markedValue d) else found)
    found

/-- Files the values that all rules give to the property, in source order. -/
def collectProperty (name : Text) (found : Table Text) : List Rule → Table Text
  | [] => found
  | .qualified rule :: rules => collectProperty name (addProperty name found rule) rules
  | .atRule rule :: rules =>
    collectProperty name (collectProperty name found rule.rules) rules
  | .error _ :: rules => collectProperty name found rules
termination_by rules => ruleWeight rules
decreasing_by
  all_goals simp only [ruleWeight_cons]
  · have := (Rule.qualified rule).weight_pos; omega
  · have := rule.weight_rules_lt; omega
  · have := (Rule.atRule rule).weight_pos; omega
  · simp only [Rule.weight]; omega

/-- The value of the property under each selector that sets it. -/
def property (bytes : List UInt8) (name : Text) : Except Failure (Table Text) := do
  return collectProperty name ∅ (← readSheet bytes)

end StyleAudit.Extract
