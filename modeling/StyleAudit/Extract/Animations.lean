import StyleAudit.Css.Selector
import StyleAudit.Extract.Sheet

/-!
# Which animations there are, and who uses them

An animation is defined by a `@keyframes` rule at the top level, with or without a vendor's
mark, under the name behind the keyword.  A later definition of the same name replaces the
earlier one.  A rule at the top level uses the animation whose name is the first word of one
of its animation properties.  Names lose the quotes around them in both places, and a name
that is used and not defined is no animation.
-/

namespace StyleAudit.Extract

open Css

/-- The keywords that define an animation. -/
def keyframesKeywords : List Text :=
  ["keyframes", "-webkit-keyframes", "-moz-keyframes", "-ms-keyframes", "-o-keyframes"].map
    String.toList

/-- The properties whose first word is the name of an animation. -/
def animationProperties : List Text :=
  ["animation", "animation-name", "-webkit-animation", "-webkit-animation-name",
    "-moz-animation", "-moz-animation-name", "-ms-animation", "-ms-animation-name",
    "-o-animation", "-o-animation-name"].map String.toList

/-- What an animation does at each step, by the selector of the step. -/
abbrev Keyframes := Table (Table Text)

/-- An animation with the selectors of the rules that use it, in source order. -/
structure Animation where
  keyframes : Keyframes
  usedBy : List Text

/-- The steps that the rules inside a definition describe. -/
def keyframesOf (rules : List Rule) : Keyframes :=
  rules.foldl
    (fun frames rule =>
      match rule with
      | .qualified r => frames.insert r.selector (valuesByName r.declarations)
      | _ => frames)
    ∅

/-- Whether the rule defines an animation. -/
def definesAnimation (rule : AtRule) : Bool := keyframesKeywords.any rule.isNamed

/-- Files the definition that a rule is, if it is one. -/
def addDefinition (found : Table Keyframes) (rule : Rule) : Except Failure (Table Keyframes) :=
  match rule with
  | .atRule r =>
    if definesAnimation r then do
      let frames ← innerRules r "@keyframes" "in @keyframes"
      return found.insert (unquote (Text.trim r.condition)) (keyframesOf frames)
    else .ok found
  | _ => .ok found

/-- The animation that a declaration names, if it is of an animation property. -/
def animationNamed? (d : Declaration) : Option Text :=
  if animationProperties.any d.isNamed then (Text.firstWord? d.value).map unquote else none

/-- The selectors of the rules that use the animation, once for each declaration that names
it. -/
def usersOf (name : Text) (rules : List Rule) : List Text :=
  rules.flatMap fun
    | .qualified r =>
      r.declarations.filterMap fun d =>
        if animationNamed? d = some name then some r.selector else none
    | _ => []

/-- The animations of a stylesheet under their names. -/
def animations (bytes : List UInt8) : Except Failure (Table Animation) := do
  let rules ← readSheet bytes
  let definitions ← rules.foldlM addDefinition ∅
  return definitions.map fun name frames => ⟨frames, usersOf name rules⟩

end StyleAudit.Extract
