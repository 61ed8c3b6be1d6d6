import StyleAudit.Extract.Sheet

/-!
# Which fonts a stylesheet sets

`fonts` files every declaration of a font property under the selector that it holds for.
Blocks are entered: a rule inside the block of another holds for the two selectors one
behind the other, and an at-rule adds nothing to the selector, wherever it stands.  Within a
block its own declarations come first, then those of the rules inside.

At the top level the inside of an at-rule is a stylesheet.  In a block it is a block, so its
declarations belong to the rule around it.

A block that has an issue fails the whole question, and each at-rule around that block, up
to the next rule at the top level, wraps the failure.
-/

namespace StyleAudit.Extract

open Css

/-- The properties that set fonts and text. -/
def fontProperties : List Text :=
  ["font", "font-family", "font-size", "font-weight", "font-style", "font-variant",
    "line-height", "text-transform", "letter-spacing"].map String.toList

/-- A declaration of a font property. -/
structure FontDeclaration where
  property : Text
  value : Text
  deriving DecidableEq, Repr

/-- The fonts under the selectors they hold for. -/
abbrev FontTable := Table (List FontDeclaration)

/-- The selector of a rule inside another. -/
def joinSelectors (outer inner : Text) : Text :=
  if outer.isEmpty then inner else Text.trim (outer ++ ' ' :: inner)

/-- The font declarations of a block, rules inside it left out. -/
def ownFonts (items : List Item) : List FontDeclaration :=
  (Item.declarations items).filterMap fun d =>
    if fontProperties.any d.isNamed then some ⟨d.name, d.value⟩ else none

/-- Files the font declarations of a block, rules inside it left out, unless the block has
an issue. -/
def addOwnFonts (selector : Text) (items : List Item) (found : FontTable) :
    Except Failure FontTable :=
  match Item.firstIssue? items with
  | some issue => .error ((Failure.ofIssue issue).inContext "in declaration")
  | none =>
    let own := ownFonts items
    .ok (if own.isEmpty then found else found.append selector own)

/-- The items of the block that an at-rule inside a block has. -/
def blockItems (rule : AtRule) : List Item :=
  match rule.body with
  | none => []
  | some body => parseBlock body

theorem weight_blockItems_lt (rule : AtRule) :
    itemWeight (blockItems rule) < (Rule.atRule rule).weight := by
  unfold blockItems
  simp only [Rule.weight]
  split
  · simp
  next body hb =>
    have := weight_parseBlock_le body
    simp only [hb, Option.getD_some]
    omega

/-- Files the font declarations of the rules inside a block, in source order. -/
def addInnerFonts (selector : Text) : List Item → FontTable → Except Failure FontTable
  | [], found => .ok found
  | .rule (.qualified rule) :: items, found => do
    let inner := joinSelectors selector rule.selector
    let found ← addOwnFonts inner rule.items found
    let found ← addInnerFonts inner rule.items found
    addInnerFonts selector items found
  | .rule (.atRule rule) :: items, found => do
    let found ←
      (addOwnFonts selector (blockItems rule) found >>=
        addInnerFonts selector (blockItems rule)).mapError
          (.nested ("@" ++ String.ofList rule.keyword))
    addInnerFonts selector items found
  | .rule (.error issue) :: _, _ => .error (.ofIssue issue)
  | .declaration _ :: items, found => addInnerFonts selector items found
  | .error _ :: items, found => addInnerFonts selector items found
termination_by items => itemWeight items
decreasing_by
  all_goals simp only [itemWeight_cons, Item.weight]
  · have := rule.weight_items_lt; omega
  · have := (Rule.qualified rule).weight_pos; omega
  · have := weight_blockItems_lt rule; omega
  · have := (Rule.atRule rule).weight_pos; omega
  all_goals omega

/-- Files the font declarations of the rules of a stylesheet, in source order. -/
def addFonts : List Rule → FontTable → Except Failure FontTable
  | [], found => .ok found
  | .qualified rule :: rules, found => do
    let found ← addOwnFonts rule.selector rule.items found
    let found ← addInnerFonts rule.selector rule.items found
    addFonts rules found
  | .atRule rule :: rules, found => do
    let found ← addFonts rule.rules found
    addFonts rules found
  | .error _ :: rules, found => addFonts rules found
termination_by rules => ruleWeight rules
decreasing_by
  all_goals simp only [ruleWeight_cons]
  · have := (Rule.qualified rule).weight_pos; omega
  · have := rule.weight_rules_lt; omega
  · have := (Rule.atRule rule).weight_pos; omega
  · simp only [Rule.weight]; omega

/-- The font declarations under the selectors they hold for. -/
def fonts (bytes : List UInt8) : Except Failure FontTable := do
  addFonts (← readSheet bytes) ∅

end StyleAudit.Extract
