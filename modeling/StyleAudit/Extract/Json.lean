import StyleAudit.Extract.Animations
import StyleAudit.Extract.Colors
import StyleAudit.Extract.Fonts
import StyleAudit.Extract.Media
import StyleAudit.JsonValue

/-!
# What a stylesheet contains, as JSON

A table is an object with its keys in order; an entry with several parts is an object with the
parts in the order of their description.
-/

namespace StyleAudit.Extract

/-- A text as a JSON string. -/
def textJson (t : Text) : JsonValue := .string (String.ofList t)

/-- A list as a JSON array. -/
def listJson {α : Type} (f : α → JsonValue) (items : List α) : JsonValue := .array (items.map f)

/-- A table as a JSON object. -/
def tableJson {β : Type} (f : β → JsonValue) (table : Table β) : JsonValue :=
  .object (table.toList.map fun (key, value) => (String.ofList key, f value))

/-- A rule for a medium as a JSON object. -/
def mediaRuleJson (r : MediaRule) : JsonValue :=
  .object [("selector", textJson r.selector), ("properties", tableJson textJson r.properties)]

/-- An animation as a JSON object. -/
def animationJson (a : Animation) : JsonValue :=
  .object [("keyframes", tableJson (tableJson textJson) a.keyframes),
    ("used_by", listJson textJson a.usedBy)]

/-- A font declaration as a JSON object. -/
def fontJson (f : FontDeclaration) : JsonValue :=
  .object [("property", textJson f.property), ("value", textJson f.value)]

end StyleAudit.Extract
