import StyleAudit.Css.Size
import StyleAudit.Failure
import StyleAudit.Table

/-!
# Stylesheets that can be asked

Every question about a stylesheet starts with the same three tests, in this order: the bytes
are UTF-8, the text has as many opening braces as closing ones, and every rule at the top
level can be read.  The first that fails is the answer.

A brace counts wherever it stands, in a comment or a string as well.
-/

namespace StyleAudit.Extract

open Css

/-- The text of a stylesheet, if its bytes are UTF-8. -/
def decodeSheet (bytes : List UInt8) : Except Failure Text :=
  (Utf8.decode bytes).mapError Failure.decode

/-- Fails if the text has more braces of one kind than of the other. -/
def checkBraces (t : Text) : Except Failure Unit :=
  let opening := t.count '{'
  let closing := t.count '}'
  if opening = closing then .ok () else .error (.unbalancedBraces opening closing)

/-- Fails with the first issue in a list of rules, blocks not looked into. -/
def checkIssues (rules : List Rule) : Except Failure Unit :=
  match Rule.firstIssue? rules with
  | none => .ok ()
  | some issue => .error (.ofIssue issue)

/-- The rules of a stylesheet that passes the tests. -/
def loadSheet (t : Text) : Except Failure (List Rule) := do
  checkBraces t
  checkIssues (parseStylesheet t)
  return parseStylesheet t

/-- The rules of a stylesheet that passes the tests, from its bytes. -/
def readSheet (bytes : List UInt8) : Except Failure (List Rule) := do
  loadSheet (← decodeSheet bytes)

/-- The rules inside an at-rule's block.  They are tested like those at the top level; a
failure tells the kind of the at-rule twice, around the failure and in its context. -/
def innerRules (rule : AtRule) (label scope : String) : Except Failure (List Rule) :=
  match checkIssues rule.rules with
  | .ok () => .ok rule.rules
  | .error e => .error (.nested label (e.inContext scope))

/-- The values of a rule's declarations, filed under the property names.  The last
declaration of a property counts. -/
def valuesByName (declarations : List Declaration) : Table Text :=
  declarations.foldl (fun table d => table.insert d.name d.value) ∅

end StyleAudit.Extract
