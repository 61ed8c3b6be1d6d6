import StyleAudit.Files.Tree
import StyleAudit.Settings.Config
import StyleAudit.Settings.Yaml

/-!
# Reading a configuration

A configuration file is a tree (`Yaml.Node`), and a configuration is read off it field by
field.  A tree that does not have the form of a configuration is refused as a whole, without
telling which field is wrong.

What is not there counts as empty: a mapping, a sequence or a set of fields may be left out by
writing nothing, or `null`, in its place.  Fields that are not known are passed over; one that
is known may occur only once.
-/

namespace StyleAudit.Config

/-! ## Values -/

/-- Whether a plain scalar says that there is no value. -/
def isNull (t : Text) : Bool :=
  ["~", "null", "Null", "NULL"].any fun s => s.toList == t

/-- Whether the node says that there is no value. -/
def isNothing : Yaml.Node → Bool
  | .scalar t plain => plain && (t.isEmpty || isNull t)
  | _ => false

/-- A text; any scalar is one, as it is written. -/
def textOf? : Yaml.Node → Option Text
  | .scalar t _ => some t
  | _ => none

/-- A text that may be missing. -/
def optionalOf? (n : Yaml.Node) : Option (Option Text) :=
  if isNothing n then some none else (textOf? n).map some

/-- A list of texts. -/
def textsOf? (n : Yaml.Node) : Option (List Text) :=
  match n with
  | .sequence items => items.mapM textOf?
  | n => if isNothing n then some [] else none

/-- A truth value, which must be plain. -/
def boolOf? : Yaml.Node → Option Bool
  | .scalar t true =>
    if ["true", "True", "TRUE"].any fun s => s.toList == t then some true
    else if ["false", "False", "FALSE"].any fun s => s.toList == t then some false
    else none
  | _ => none

/-- A severity by its name. -/
def severityOf? (n : Yaml.Node) : Option Severity :=
  (textOf? n).bind fun t => Severity.ofName? (String.ofList t)

/-- The entries of a mapping, by the texts of their keys. -/
def entriesOf? (n : Yaml.Node) : Option (List (Text × Yaml.Node)) :=
  match n with
  | .mapping entries => entries.mapM fun (key, value) => (textOf? key).map fun k => (k, value)
  | n => if isNothing n then some [] else none

/-! ## Fields -/

/-- The fields of a node.  A sequence gives at least two of them by their order. -/
def fieldsOf? (names : List String) (n : Yaml.Node) : Option (List (Text × Yaml.Node)) :=
  match n with
  | .sequence items =>
    if 2 ≤ items.length ∧ items.length ≤ names.length then
      some ((names.map String.toList).zip items)
    else none
  | n => entriesOf? n

/-- A field that may be left out; refused if it occurs twice or its value is wrong. -/
def field? {α : Type} (fields : List (Text × Yaml.Node)) (name : String)
    (read : Yaml.Node → Option α) (default : α) : Option α :=
  match fields.filter fun f => f.1 == name.toList with
  | [] => some default
  | [f] => read f.2
  | _ => none

/-- A field that must be there. -/
def required? {α : Type} (fields : List (Text × Yaml.Node)) (name : String)
    (read : Yaml.Node → Option α) : Option α :=
  (field? fields name (fun n => (read n).map some) none).bind id

/-- The settings of a check. -/
def ruleOf? (n : Yaml.Node) : Option CheckRule := do
  let fields ← fieldsOf? ["description", "severity", "enabled"] n
  return {
    description := ← required? fields "description" textOf?
    severity := ← required? fields "severity" severityOf?
    enabled := ← field? fields "enabled" boolOf? true }

/-- The settings of the checks under their names; the last of each name counts. -/
def checksOf? (n : Yaml.Node) : Option (Table CheckRule) := do
  (← entriesOf? n).foldlM (fun table (id, value) => (ruleOf? value).map (table.insert id)) ∅

/-- Which files are looked at. -/
def pathsOf? (n : Yaml.Node) : Option PathSettings := do
  let fields ← fieldsOf? ["patterns", "ignore_file", "extensions"] n
  return {
    patterns := ← field? fields "patterns" textsOf? []
    ignoreFile := ← field? fields "ignore_file" optionalOf? none
    extensions := ← field? fields "extensions" textsOf? standardExtensions }

/-- The configuration that a tree describes. -/
def ofNode? (n : Yaml.Node) : Option Config := do
  let fields ← fieldsOf? ["version", "paths", "checks"] n
  return {
    version := ← required? fields "version" textOf?
    paths := ← required? fields "paths" pathsOf?
    checks := ← field? fields "checks" checksOf? standardChecks }

/-! ## Texts and files -/

/-- The configuration that a text describes, if it can be used.  `what` names the text in
failures. -/
def ofText (what : String) (t : Text) : Except Failure Config :=
  match (Yaml.Node.parse? t).bind ofNode? with
  | none => .error (.configuration ("Failed to parse " ++ what))
  | some c => do
    c.validate
    return c

/-- The configuration in a text. -/
def load (t : Text) : Except Failure Config := ofText "config" t

/-- The configuration in a file. -/
def loadFile (tree : Node) (p : Path) : Except Failure Config :=
  match tree.readText p with
  | .error fault =>
    .error (.configuration ("Failed to read config file '" ++ String.ofList p.text ++ "': " ++
      fault.message))
  | .ok t => ofText ("config file '" ++ String.ofList p.text ++ "'") t

/-- The names of files that are read without being asked for. -/
def defaultFiles : List String :=
  ["css_inspector.yaml", "css_inspector.yml", ".css_inspector.yaml"]

/-- The first of these files that the directory has. -/
def discover? (tree : Node) (dir : Path) : Option Path :=
  (defaultFiles.map fun name => dir.join name.toList).find? tree.isFile

end StyleAudit.Config
