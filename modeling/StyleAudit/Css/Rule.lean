import StyleAudit.Css.Token

/-!
# Rules, declarations and the errors among them

A stylesheet is a list of rules.  A rule keeps its selector and the inside of its block as
source text, so the block can be read again on its own, once as declarations and nested
rules, once as a stylesheet, whichever the question is.

What cannot be read does not stop the reading.  It becomes an `Issue` that stands in
the list where the rule or declaration would have stood.

`Rule.serialize` writes a rule on one line from the parts it keeps.
-/

namespace StyleAudit.Css

/-- Why a rule or a declaration cannot be read. -/
inductive Fault where
  | unexpectedToken (t : Token)
  | unexpectedEnd
  /-- A declaration whose value has a block in it. -/
  | blockInValue
  /-- A rule that begins like the declaration of a custom property. -/
  | customPropertyHead
  deriving DecidableEq, Repr

/-- A rule or declaration that cannot be read, and the place where that shows. -/
structure Issue where
  fault : Fault
  line : Nat
  column : Nat
  deriving DecidableEq, Repr

/-- The issue that a fault at a place is. -/
def Fault.issueAt (f : Fault) (p : Place) : Issue := ⟨f, p.line, p.column⟩

/-- `name: value`, with or without the mark `!important`. -/
structure Declaration where
  /-- The property name, escapes resolved. -/
  name : Text
  /-- The value as it is written, trimmed, without the mark. -/
  value : Text
  important : Bool
  deriving DecidableEq, Repr

/-- `selector { block }` -/
structure QualifiedRule where
  /-- The selector as it is written, trimmed. -/
  selector : Text
  /-- The inside of the block as it is written. -/
  body : Text
  /-- The line of the first token. -/
  line : Nat
  /-- The line where the inside of the block begins. -/
  bodyLine : Nat
  deriving DecidableEq, Repr

/-- `@keyword condition { block }`, or `@keyword condition;` -/
structure AtRule where
  /-- The keyword without its sign, escapes resolved. -/
  keyword : Text
  /-- What stands behind the keyword, trimmed. -/
  condition : Text
  /-- The inside of the block as it is written, if there is one. -/
  body : Option Text
  /-- The line of the keyword. -/
  line : Nat
  deriving DecidableEq, Repr

/-- What a stylesheet is a list of. -/
inductive Rule where
  | qualified (rule : QualifiedRule)
  | atRule (rule : AtRule)
  | error (issue : Issue)
  deriving DecidableEq, Repr

/-- What a block is a list of. -/
inductive Item where
  | declaration (d : Declaration)
  | rule (r : Rule)
  | error (issue : Issue)
  deriving DecidableEq, Repr

/-- Whether the at-rule has the given keyword, up to the case of ASCII letters. -/
def AtRule.isNamed (rule : AtRule) (keyword : Text) : Bool := rule.keyword.sameName keyword

/-- Whether the declaration sets the given property, up to the case of ASCII letters. -/
def Declaration.isNamed (d : Declaration) (name : Text) : Bool := d.name.sameName name

/-- The declarations among the items of a block. -/
def Item.declarations (items : List Item) : List Declaration :=
  items.filterMap fun
    | .declaration d => some d
    | _ => none

/-- The first issue among the items of a block. -/
def Item.firstIssue? (items : List Item) : Option Issue :=
  items.findSome? fun
    | .error issue => some issue
    | _ => none

/-- The first issue in a list of rules. -/
def Rule.firstIssue? (rules : List Rule) : Option Issue :=
  rules.findSome? fun
    | .error issue => some issue
    | _ => none

/-! ## Writing rules -/

namespace Rule

/-- The rule on one line.  An issue has no text. -/
def serialize : Rule → Text
  | .qualified r => r.selector ++ " \x7b".toList ++ r.body ++ ['}']
  | .atRule r =>
    let head := '@' :: r.keyword ++ (if r.condition.isEmpty then [] else ' ' :: r.condition)
    match r.body with
    | some body => head ++ " \x7b".toList ++ body ++ ['}']
    | none => head ++ [';']
  | .error _ => []

/-- The rules one below the other, issues left out. -/
def serializeAll (rules : List Rule) : Text :=
  ((rules.map serialize).filter fun t => !t.isEmpty).intersperse ['\n'] |>.flatten

end Rule
end StyleAudit.Css
